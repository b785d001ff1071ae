import Mathlib.Data.List.Perm.Basic
import Lax.Foundation.Cells
import Lax.Net.Buffer.Impl.Extent

/-!
This module contains what the pool promises to those who take blocks from it: a block is long enough
and nobody else has it.
-/

namespace Lax
namespace BufferPool

open Cells (Apart)

def queued (pool : BufferPool) : List Nat :=
  pool.pools.flatMap FixedSizeBufferPool.blocks

structure OfClass (block : Block) (i : Nat) : Prop where
  pool : block.pool = some i
  pooled : block.isAllocatedFromOs = false
  capacity : classes[i]? = some block.capacity

structure Sound (pool : BufferPool) (held : List Nat) : Prop where
  apart : Apart (held ++ pool.queued) pool.allocated
  classes : pool.pools.map FixedSizeBufferPool.length = classes
  queued : ∀ i fixed, pool.pools[i]? = some fixed →
    ∀ addr ∈ fixed.blocks, OfClass (pool.block addr) i
  held : ∀ addr ∈ held, (pool.block addr).isAllocatedFromOs = true ∨ ∃ i, OfClass (pool.block addr) i

theorem queued_initPools (size n : Nat) :
    (initPools size n).flatMap FixedSizeBufferPool.blocks = [] := by
  induction n generalizing size with
  | zero => rfl
  | succ n ih => simp [initPools, ih]

theorem sound_init : Sound init [] := by
  have hqueued : init.queued = [] := queued_initPools _ _
  constructor
  . rw [hqueued]
    exact Apart.nil
  . rfl
  . intro i fixed hfixed addr haddr
    have hmem : addr ∈ init.queued :=
      List.mem_flatMap.mpr ⟨fixed, List.mem_of_getElem? hfixed, haddr⟩
    rw [hqueued] at hmem
    cases hmem
  . intro addr haddr
    cases haddr

variable {pool : BufferPool} {held : List Nat}

theorem Sound.perm {held' : List Nat} (h : Sound pool held) (hperm : held.Perm held') :
    Sound pool held' := by
  constructor
  . apply h.apart.perm
    exact hperm.append_right _
  . exact h.classes
  . exact h.queued
  . exact fun addr haddr => h.held addr (hperm.mem_iff.mpr haddr)

@[simp]
theorem block_write_self (pool : BufferPool) (addr pos : Nat) (bytes : List (Option UInt8)) :
    ((pool.write addr pos bytes).block addr).data = Slice.write (pool.block addr).data pos bytes := by
  simp [write]

@[simp]
theorem block_write_of_ne {addr addr' : Nat} (hne : addr' ≠ addr) (pos : Nat)
    (bytes : List (Option UInt8)) :
    (pool.write addr pos bytes).block addr' = pool.block addr' := by
  simp [write, Function.update_of_ne hne]

theorem capacity_write {addr pos : Nat} {bytes : List (Option UInt8)} (addr' : Nat)
    (hrange : pos + bytes.length ≤ (pool.block addr).capacity) :
    ((pool.write addr pos bytes).block addr').capacity = (pool.block addr').capacity := by
  by_cases heq : addr' = addr
  . subst heq
    unfold Block.capacity
    rw [block_write_self, Slice.length_write _ _ _ hrange]
  . rw [block_write_of_ne heq]

theorem map_length_set {pools : List FixedSizeBufferPool} {i : Nat}
    {fixed fixed' : FixedSizeBufferPool} (hi : pools[i]? = some fixed)
    (hlength : fixed'.length = fixed.length) :
    (pools.set i fixed').map FixedSizeBufferPool.length = pools.map FixedSizeBufferPool.length := by
  have hget : (pools.map FixedSizeBufferPool.length)[i]? = some fixed'.length := by
    rw [List.getElem?_map, hi, Option.map_some, hlength]
  obtain ⟨hlt, heq⟩ := List.getElem?_eq_some_iff.mp hget
  rw [List.map_set, ← heq, List.set_getElem_self]

-- What has been taken out of the queue of a class pool is held, and the other way round.
theorem perm_set (held held' : List Nat) {i : Nat} {fixed : FixedSizeBufferPool}
    (hi : pool.pools[i]? = some fixed) (fixed' : FixedSizeBufferPool)
    (hcount : ∀ addr, held'.count addr + fixed'.blocks.count addr
      = held.count addr + fixed.blocks.count addr) :
    (held ++ pool.queued).Perm
      (held' ++ { pool with pools := pool.pools.set i fixed' }.queued) := by
  rw [List.perm_iff_count]
  intro addr
  have hset := Cells.count_flatMap_set (f := FixedSizeBufferPool.blocks) hi fixed' addr
  have hcount := hcount addr
  simp only [BufferPool.queued, List.count_append]
  omega

-- A class pool exchanges its queue for another one.
theorem Sound.set {held' : List Nat} {i : Nat} {fixed : FixedSizeBufferPool} (h : Sound pool held)
    (hi : pool.pools[i]? = some fixed) (fixed' : FixedSizeBufferPool)
    (hlength : fixed'.length = fixed.length)
    (hcount : ∀ addr, held'.count addr + fixed'.blocks.count addr
      = held.count addr + fixed.blocks.count addr)
    (hblocks : ∀ addr ∈ fixed'.blocks, OfClass (pool.block addr) i)
    (hheld : ∀ addr ∈ held', (pool.block addr).isAllocatedFromOs = true
      ∨ ∃ i, OfClass (pool.block addr) i) :
    Sound { pool with pools := pool.pools.set i fixed' } held' := by
  constructor
  . apply h.apart.perm
    exact perm_set held held' hi fixed' hcount
  . rw [← h.classes]
    exact map_length_set hi hlength
  . intro j fixed'' hj
    dsimp only at hj
    by_cases hij : i = j
    . subst hij
      rw [List.getElem?_set_self' , hi] at hj
      injection hj with hj
      exact hj ▸ hblocks
    . rw [List.getElem?_set_ne hij] at hj
      exact h.queued j fixed'' hj
  . exact hheld

-- The first component is a block of `n` bytes, and nobody of those who have the blocks in `held` has it.
inductive Taken (pool : BufferPool) (n : Nat) : Nat × BufferPool → Prop where
  | reused (i : Nat) (fixed : FixedSizeBufferPool) (addr : Nat) (blocks : List Nat)
      (hi : pool.pools[i]? = some fixed) (hle : n ≤ fixed.length)
      (hblocks : fixed.blocks = addr :: blocks) :
      Taken pool n (addr,
        { pool with
          pools := pool.pools.set i
            { fixed with
              blocks
              allocCount := fixed.allocCount + 1
              totalAllocCount := fixed.totalAllocCount + 1 } })
  | made (i : Nat) (fixed : FixedSizeBufferPool)
      (hi : pool.pools[i]? = some fixed) (hle : n ≤ fixed.length) (hblocks : fixed.blocks = []) :
      Taken pool n (
        { pool with
          pools := pool.pools.set i
            { fixed with
              allocCount := fixed.allocCount + 1
              totalAllocCount := fixed.totalAllocCount + 1 } }.newBlock
          ⟨some i, false, List.replicate fixed.length none⟩)
  | fromOs (hlong : ∀ fixed ∈ pool.pools, fixed.length < n) :
      Taken pool n (
        { pool with
          osAllocCount := pool.osAllocCount + 1
          osAllocBytes := pool.osAllocBytes + n.toUInt32
          totalOsAllocBytes := pool.totalOsAllocBytes + (pool.osAllocBytes + n.toUInt32) }.newBlock
          ⟨none, true, List.replicate n none⟩)

theorem taken_alloc (pool : BufferPool) (n : Nat) : Taken pool n (pool.alloc n) := by
  unfold alloc
  split
  . next i hfind =>
    have hi : pool.pools[i.val]? = some (pool.pools.get i) := by simp
    have hle : n ≤ (pool.pools.get i).length := by
      simpa using (List.findFinIdx?_eq_some_iff.mp hfind).1
    unfold allocFixed
    dsimp only
    cases hblocks : (pool.pools.get i).blocks with
    | cons addr blocks => exact Taken.reused i _ addr blocks hi hle hblocks
    | nil =>
      have hmade := Taken.made (n := n) i _ hi hle hblocks
      rw [hblocks] at hmade
      exact hmade
  . next hfind =>
    apply Taken.fromOs
    simpa using hfind

inductive Returned (pool : BufferPool) (addr : Nat) : BufferPool → Prop where
  | toOs (hos : (pool.block addr).isAllocatedFromOs = true) :
      Returned pool addr
        { pool with
          osAllocCount := pool.osAllocCount - 1
          osAllocBytes := pool.osAllocBytes - (pool.block addr).capacity.toUInt32
          totalOsReleaseBytes :=
            pool.totalOsReleaseBytes + (pool.block addr).capacity.toUInt32 }
  | toClass (i : Nat) (fixed : FixedSizeBufferPool) (hclass : OfClass (pool.block addr) i)
      (hi : pool.pools[i]? = some fixed) :
      Returned pool addr
        { pool with
          pools := pool.pools.set i
            { fixed with
              allocCount := fixed.allocCount - 1
              totalReleaseCount := fixed.totalReleaseCount + 1
              blocks := fixed.blocks ++ [addr] } }

theorem returned_release {addr : Nat} (h : Sound pool (addr :: held)) :
    Returned pool addr (pool.release addr) := by
  unfold release
  dsimp only
  split
  . next hos => exact Returned.toOs hos
  . next hos =>
    obtain hos' | ⟨i, hclass⟩ := h.held addr List.mem_cons_self
    . exact absurd hos' hos
    . have hi := hclass.capacity
      rw [← h.classes, List.getElem?_map, Option.map_eq_some_iff] at hi
      obtain ⟨fixed, hfixed, hlength⟩ := hi
      rw [hclass.pool, Option.bind_some, hfixed, Option.map_some]
      dsimp only [releaseFixed]
      rw [if_neg (not_not_intro hlength.symm)]
      exact Returned.toClass i fixed hclass hfixed

structure Allocated (pool : BufferPool) (held : List Nat) (n : Nat) (result : Nat × BufferPool) :
    Prop where
  sound : Sound result.2 (result.1 :: held)
  capacity : (result.2.block result.1).capacity = n
  frame : ∀ addr ∈ held, result.2.block addr = pool.block addr

theorem Sound.newBlock {block : Block} (h : Sound pool held)
    (hblock : block.isAllocatedFromOs = true ∨ ∃ i, OfClass block i) :
    Allocated pool held block.capacity (pool.newBlock block) := by
  have hframe : ∀ addr ∈ held ++ pool.queued,
      Function.update pool.block pool.allocated block addr = pool.block addr := by
    intro addr haddr
    apply Function.update_of_ne
    exact Nat.ne_of_lt (h.apart.lt addr haddr)
  unfold BufferPool.newBlock
  constructor
  . constructor
    . exact h.apart.fresh
    . exact h.classes
    . intro i fixed hi addr haddr
      have hmem : addr ∈ pool.queued :=
        List.mem_flatMap.mpr ⟨fixed, List.mem_of_getElem? hi, haddr⟩
      dsimp only
      rw [hframe addr (List.mem_append_right _ hmem)]
      exact h.queued i fixed hi addr haddr
    . intro addr haddr
      dsimp only at haddr ⊢
      rcases List.mem_cons.mp haddr with rfl | haddr
      . simpa using hblock
      . rw [hframe addr (List.mem_append_left _ haddr)]
        exact h.held addr haddr
  . simp
  . exact fun addr haddr => hframe addr (List.mem_append_left _ haddr)

theorem Sound.allocFixed {i : Nat} {fixed : FixedSizeBufferPool} (h : Sound pool held)
    (hi : pool.pools[i]? = some fixed) :
    Allocated pool held fixed.length (pool.allocFixed i fixed) := by
  have hclass : BufferPool.classes[i]? = some fixed.length := by
    rw [← h.classes, List.getElem?_map, hi]
    rfl
  unfold BufferPool.allocFixed
  dsimp only
  cases hblocks : fixed.blocks with
  | cons addr blocks =>
    have hofClass : ∀ addr' ∈ addr :: blocks, OfClass (pool.block addr') i := by
      rw [← hblocks]
      exact h.queued i fixed hi
    have haddr := hofClass addr List.mem_cons_self
    dsimp only
    constructor
    . apply h.set hi { fixed with
        blocks, allocCount := fixed.allocCount + 1, totalAllocCount := fixed.totalAllocCount + 1 } rfl
      . intro addr'
        simp only [hblocks, List.count_cons]
        omega
      . exact fun addr' haddr' => hofClass addr' (List.mem_cons_of_mem _ haddr')
      . intro addr' haddr'
        rcases List.mem_cons.mp haddr' with rfl | haddr'
        . exact Or.inr ⟨i, haddr⟩
        . exact h.held addr' haddr'
    . have hcapacity := haddr.capacity
      rw [hclass] at hcapacity
      injection hcapacity with hcapacity
      exact hcapacity.symm
    . exact fun _ _ => rfl
  | nil =>
    have hset : Sound { pool with
        pools := pool.pools.set i { fixed with
          allocCount := fixed.allocCount + 1
          totalAllocCount := fixed.totalAllocCount + 1 } } held := by
      apply h.set hi { fixed with
        allocCount := fixed.allocCount + 1, totalAllocCount := fixed.totalAllocCount + 1 } rfl
      . exact fun _ => rfl
      . exact h.queued i fixed hi
      . exact h.held
    have hnew := @Sound.newBlock _ _ ⟨some i, false, List.replicate fixed.length none⟩ hset
      (Or.inr ⟨i, rfl, rfl, by simp [Block.capacity, hclass]⟩)
    rw [hblocks, Block.capacity, List.length_replicate] at hnew
    exact ⟨hnew.sound, hnew.capacity, hnew.frame⟩

theorem Sound.alloc (h : Sound pool held) (n : Nat) :
    Allocated pool held (capacityFor n) (pool.alloc n) := by
  unfold BufferPool.alloc capacityFor
  rw [← h.classes, List.find?_map]
  split
  . next i hfind =>
    rw [List.findFinIdx?_eq_some_iff] at hfind
    have hfirst : pool.pools.find? ((fun length => decide (n ≤ length)) ∘ FixedSizeBufferPool.length)
        = some (pool.pools.get i) := by
      rw [List.find?_eq_some_iff_getElem]
      refine ⟨hfind.1, i, i.isLt, rfl, ?_⟩
      intro j hj
      simpa using hfind.2 ⟨j, Nat.lt_trans hj i.isLt⟩ hj
    rw [hfirst]
    apply h.allocFixed
    simp
  . next hfind =>
    have hnone : pool.pools.find? ((fun length => decide (n ≤ length)) ∘ FixedSizeBufferPool.length)
        = none := by
      simpa using hfind
    rw [hnone]
    have hnew := @Sound.newBlock { pool with
        osAllocCount := pool.osAllocCount + 1
        osAllocBytes := pool.osAllocBytes + n.toUInt32
        totalOsAllocBytes := pool.totalOsAllocBytes + (pool.osAllocBytes + n.toUInt32) } held
      ⟨none, true, List.replicate n none⟩ ⟨h.apart, h.classes, h.queued, h.held⟩ (Or.inl rfl)
    rw [Block.capacity, List.length_replicate] at hnew
    exact ⟨hnew.sound, hnew.capacity, hnew.frame⟩

theorem Sound.release {addr : Nat} (h : Sound pool (addr :: held)) :
    Sound (pool.release addr) held ∧ (pool.release addr).block = pool.block := by
  have hreturned := returned_release h
  generalize pool.release addr = pool' at hreturned ⊢
  cases hreturned with
  | toOs hos =>
    refine ⟨⟨?_, h.classes, h.queued, ?_⟩, rfl⟩
    . apply h.apart.sublist
      exact List.sublist_cons_self _ _
    . exact fun addr' haddr' => h.held addr' (List.mem_cons_of_mem _ haddr')
  | toClass i fixed hclass hfixed =>
    refine ⟨h.set hfixed { fixed with
      allocCount := fixed.allocCount - 1, totalReleaseCount := fixed.totalReleaseCount + 1
      blocks := fixed.blocks ++ [addr] } rfl ?_ ?_ ?_, rfl⟩
    . intro addr'
      simp only [List.count_cons, List.count_append, List.count_nil]
      omega
    . intro addr' haddr'
      rw [List.mem_append, List.mem_singleton] at haddr'
      rcases haddr' with haddr' | rfl
      . exact h.queued i fixed hfixed addr' haddr'
      . exact hclass
    . exact fun addr' haddr' => h.held addr' (List.mem_cons_of_mem _ haddr')

theorem Sound.write {addr pos : Nat} {bytes : List (Option UInt8)} (h : Sound pool held)
    (hrange : pos + bytes.length ≤ (pool.block addr).capacity) :
    Sound (pool.write addr pos bytes) held := by
  have hblock : ∀ addr', ((pool.write addr pos bytes).block addr').isAllocatedFromOs
        = (pool.block addr').isAllocatedFromOs
      ∧ ∀ i, OfClass (pool.block addr') i → OfClass ((pool.write addr pos bytes).block addr') i := by
    intro addr'
    have hcapacity := capacity_write addr' hrange
    by_cases heq : addr' = addr
    . subst heq
      constructor
      . simp [BufferPool.write]
      . intro i hclass
        constructor
        . simpa [BufferPool.write] using hclass.pool
        . simpa [BufferPool.write] using hclass.pooled
        . rw [hcapacity]
          exact hclass.capacity
    . rw [block_write_of_ne heq]
      exact ⟨rfl, fun _ hclass => hclass⟩
  constructor
  . exact h.apart
  . exact h.classes
  . intro i fixed hi addr' haddr'
    exact (hblock addr').2 i (h.queued i fixed hi addr' haddr')
  . intro addr' haddr'
    rw [(hblock addr').1]
    exact (h.held addr' haddr').imp_right fun ⟨i, hclass⟩ => ⟨i, (hblock addr').2 i hclass⟩

end BufferPool
end Lax
