import Lax.Net.Buffer.Lemmas.Pack
import Lax.Net.Buffer.Lemmas.ResizeBuffer

/-!
This module contains when `resize` really makes room. What is missing is computed from the capacity, and
added to the size.
-/

namespace Lax

open BufferPool (capacityFor capacityFor_capacityFor capacityFor_le_of_fixed classes le_capacityFor le_capacityFor_iff)

-- The block is one that the pool hands out.
def Extent.FromPool (e : Extent) : Prop :=
  ∀ capacity, e.block = some capacity → capacityFor capacity = capacity

theorem Extent.FromPool.reserve {e : Extent} (h : e.FromPool) (initialSize len : Nat) :
    (e.reserve initialSize len).FromPool := by
  unfold Extent.reserve
  cases hblock : e.block with
  | none =>
    intro capacity hcapacity
    injection hcapacity with hcapacity
    rw [← hcapacity, capacityFor_capacityFor]
  | some capacity =>
    dsimp only
    split
    . intro capacity' hcapacity
      injection hcapacity with hcapacity
      rw [← hcapacity, capacityFor_capacityFor]
    . exact h

namespace ResizeBuffer

variable {others : List Nat} {pool : BufferPool} {b : ResizeBuffer} {e : Extent}
  {bytes : List (Option UInt8)}

-- The bytes up to the size are not all in the block.
theorem Holds.reserve_eq_none (h : Holds others pool b e bytes) (hsize : e.capacity < e.size)
    (len : Nat) : ResizeBuffer.reserve pool b len = none := by
  have hpos := h.pos_eq
  have hcapacity := h.capacity_eq
  unfold ResizeBuffer.capacity at hcapacity
  unfold ResizeBuffer.reserve
  cases hbuf : b.buf with
  | none =>
    have hzero := h.empty hbuf
    omega
  | some addr =>
    have hsound := h.sound
    rw [hbuf] at hcapacity hsound
    dsimp only at hcapacity ⊢
    have hallocated := hsound.alloc (b.pos + len)
    have hframe := hallocated.frame addr (by simp)
    unfold ResizeBuffer.reserveMore
    rw [if_pos (by omega)]
    dsimp only
    rw [hframe, if_neg]
    omega

theorem Holds.resize_eq_none (h : Holds others pool b e bytes) {newSize : Nat}
    (hsize : ¬e.size ≤ e.capacity) (hnew : ¬newSize ≤ e.capacity) :
    ResizeBuffer.resize pool b newSize = none := by
  unfold ResizeBuffer.resize
  rw [h.capacity_eq, if_neg hnew, h.reserve_eq_none (Nat.lt_of_not_le hsize)]
  rfl

theorem Holds.write {addr pos : Nat} {written : List (Option UInt8)} (h : Holds others pool b e bytes)
    (hrange : pos + written.length ≤ (pool.block addr).capacity) :
    ∃ bytes', Holds others (pool.write addr pos written) b e bytes' := by
  refine ⟨_, h.sound.write hrange, h.empty, ?_, rfl⟩
  rw [← h.extent_eq]
  unfold extent
  simp [BufferPool.capacity_write _ hrange]

theorem Holds.popFront_any (h : Holds others pool b e bytes) {count : Nat} {pool' : BufferPool}
    {b' : ResizeBuffer} (hpop : ResizeBuffer.popFront pool b count = some (pool', b')) :
    ∃ e' bytes', Holds others pool' b' e' bytes' ∧ e'.block = e.block := by
  unfold ResizeBuffer.popFront at hpop
  split at hpop
  . cases hpop
    exact ⟨e, bytes, h, rfl⟩
  . next addr hbuf =>
    dsimp only at hpop
    split at hpop
    . cases hpop
      exact ⟨e, bytes, h, rfl⟩
    . split at hpop
      . cases hpop
        have hrange : 0 + (Slice.read (pool.block addr).data (min count b.size)
            (b.pos - min count b.size)).length ≤ (pool.block addr).capacity := by
          unfold Slice.read Block.capacity
          rw [List.length_take, List.length_drop]
          omega
        obtain ⟨bytes', h'⟩ := h.write hrange
        obtain ⟨bytes'', h'', -⟩ := h'.withPos (fun hnone => by simp [hbuf] at hnone)
        exact ⟨_, bytes'', h'', rfl⟩
      . cases hpop

namespace Use

-- The states that a buffer gets into, also those in which it takes itself to be longer than its block.
def Tracked (u : Use) (e : Extent) : Prop :=
  (∃ bytes, Holds u.others u.pool u.buffer e bytes) ∧ e.FromPool

theorem Tracked.step {u u' : Use} {e : Extent} (h : u.Tracked e) {c : Call}
    (hstep : step u c = some u') : ∃ e', u'.Tracked e' := by
  obtain ⟨⟨bytes, hholds⟩, hfixed⟩ := h
  cases c with
  | append p =>
    obtain ⟨⟨pool', b'⟩, happend, rfl⟩ := Option.map_eq_some_iff.mp hstep
    by_cases hsize : e.size ≤ e.capacity
    . obtain ⟨pool'', b'', happend', -, h'⟩ := hholds.append hsize p
      rw [happend] at happend'
      cases happend'
      exact ⟨_, ⟨_, h'⟩, hfixed.reserve _ _⟩
    . unfold ResizeBuffer.append at happend
      rw [hholds.reserve_eq_none (Nat.lt_of_not_le hsize)] at happend
      cases happend
  | rewind pos =>
    injection hstep with hstep
    subst hstep
    refine ⟨_, ⟨_, hholds.rewind pos⟩, ?_⟩
    unfold Extent.rewind
    split <;> exact hfixed
  | popFront count =>
    obtain ⟨⟨pool', b'⟩, hpop, rfl⟩ := Option.map_eq_some_iff.mp hstep
    obtain ⟨e', bytes', h', hblock⟩ := hholds.popFront_any hpop
    refine ⟨e', ⟨bytes', h'⟩, ?_⟩
    unfold Extent.FromPool
    rw [hblock]
    exact hfixed
  | resize newSize =>
    obtain ⟨⟨pool', b'⟩, hresize, rfl⟩ := Option.map_eq_some_iff.mp hstep
    by_cases hsize : e.size ≤ e.capacity ∨ newSize ≤ e.capacity
    . obtain ⟨pool'', b'', bytes', hresize', -, h', -⟩ := hholds.resize hsize
      rw [hresize] at hresize'
      cases hresize'
      refine ⟨_, ⟨bytes', h'⟩, ?_⟩
      unfold Extent.resize
      split
      . exact hfixed
      . exact hfixed.reserve _ _
    . rw [not_or] at hsize
      rw [hholds.resize_eq_none hsize.1 hsize.2] at hresize
      cases hresize
  | otherTakes n =>
    injection hstep with hstep
    subst hstep
    exact ⟨e, ⟨bytes, hholds.otherTakes n⟩, hfixed⟩
  | otherWrites i pos written =>
    obtain ⟨u'', hstep', h'⟩ := step_otherWrites hholds i pos written
    rw [hstep] at hstep'
    cases hstep'
    exact ⟨e, ⟨bytes, h'⟩, hfixed⟩
  | otherGives i =>
    obtain ⟨u'', hstep', h'⟩ := step_otherGives hholds i
    rw [hstep] at hstep'
    cases hstep'
    exact ⟨e, ⟨bytes, h'⟩, hfixed⟩

theorem tracked_of_run {initialSize : Nat} {calls : List Call} {u : Use}
    (hrun : (machine initialSize).run (init initialSize) calls = some u) : ∃ e, u.Tracked e := by
  apply Machine.inv_of_run (fun u => ∃ e, Tracked u e) ?_ hrun
  . refine ⟨{}, ⟨[], (filled_init initialSize).holds⟩, ?_⟩
    intro capacity hcapacity
    cases hcapacity
  . rintro u c u' ⟨e, h⟩ hstep
    exact h.step hstep

/-!
### Room
-/

-- What `resize` is there for.
def Grown (u : Use) (newSize : Nat) : Prop :=
  ∃ pool b, u.buffer.resize u.pool newSize = some (pool, b)
    ∧ b.size = newSize
    ∧ newSize ≤ b.capacity pool
    ∧ (b.data pool).take (min u.buffer.size newSize)
      = (u.buffer.data u.pool).take (min u.buffer.size newSize)

-- There is room already, or there is no block yet, or the block is full, or the class of the block for
-- `size + newSize - capacity` bytes is also the one for `newSize` bytes.
def Growable (u : Use) (newSize : Nat) : Prop :=
  let size := u.buffer.size
  let capacity := u.buffer.capacity u.pool
  newSize ≤ capacity ∨ u.buffer.buf = none ∨ size = capacity
    ∨ size < capacity ∧ newSize ≤ 2 ^ 21
      ∧ ∀ length ∈ classes, length < newSize → length < size + (newSize - capacity)

theorem Tracked.grown_iff_extent {u : Use} {e : Extent} (h : u.Tracked e) (newSize : Nat) :
    u.Grown newSize ↔ newSize ≤ e.capacity
      ∨ e.size ≤ e.capacity ∧ newSize ≤ (e.resize u.buffer.initialSize newSize).capacity := by
  obtain ⟨⟨bytes, hholds⟩, -⟩ := h
  have hpos := hholds.pos_eq
  by_cases hsize : e.size ≤ e.capacity ∨ newSize ≤ e.capacity
  . obtain ⟨pool', b', bytes', hresize, -, h', htake⟩ := hholds.resize hsize
    have hgrown : u.Grown newSize ↔ newSize ≤ (e.resize u.buffer.initialSize newSize).capacity := by
      have hsize' : b'.pos = newSize := by
        rw [h'.pos_eq, Extent.size_resize]
      constructor
      . rintro ⟨pool'', b'', hresize', -, hroom, -⟩
        rw [hresize] at hresize'
        cases hresize'
        rw [← h'.capacity_eq]
        exact hroom
      . intro hroom
        refine ⟨pool', b', hresize, hsize', ?_, ?_⟩
        . rw [h'.capacity_eq]
          exact hroom
        . unfold size
          rw [h'.data_eq, hholds.data_eq, hpos, htake]
    rw [hgrown]
    constructor
    . intro hroom
      exact hsize.symm.imp_right fun hle => ⟨hle, hroom⟩
    . rintro (hle | ⟨-, hroom⟩)
      . unfold Extent.resize
        rw [if_pos hle]
        exact hle
      . exact hroom
  . rw [not_or] at hsize
    constructor
    . rintro ⟨pool', b', hresize, -⟩
      rw [hholds.resize_eq_none hsize.1 hsize.2] at hresize
      cases hresize
    . rintro (hle | ⟨hle, -⟩)
      . exact absurd hle hsize.2
      . exact absurd hle hsize.1

theorem Tracked.grown_iff {u : Use} {e : Extent} (h : u.Tracked e) (newSize : Nat) :
    u.Grown newSize ↔ u.Growable newSize := by
  rw [h.grown_iff_extent]
  obtain ⟨⟨bytes, hholds⟩, hfixed⟩ := h
  have hcapacity := hholds.capacity_eq
  have hpos : u.buffer.size = e.size := hholds.pos_eq
  unfold Growable
  dsimp only
  rw [hcapacity, hpos]
  by_cases hle : newSize ≤ e.capacity
  . simp [hle]
  . unfold Extent.resize
    rw [if_neg hle]
    cases hbuf : u.buffer.buf with
    | none =>
      have hblock : e.block = none := by
        simp [← hholds.extent_eq, extent, hbuf]
      have hzero := hholds.empty_extent hblock
      have hroom := le_capacityFor (max newSize u.buffer.initialSize)
      simp [Extent.capacity, Extent.reserve, hblock, hzero]
      omega
    | some addr =>
      obtain ⟨capacity, hblock⟩ : ∃ capacity, e.block = some capacity := by
        simp [← hholds.extent_eq, extent, hbuf]
      have hcap : e.capacity = capacity := by
        simp [Extent.capacity, hblock]
      have hfixed := hfixed capacity hblock
      rw [hcap] at hle ⊢
      have hreserve : newSize ≤ (e.reserve u.buffer.initialSize (newSize - capacity)).capacity
          ↔ newSize ≤ capacityFor (e.size + (newSize - capacity)) := by
        unfold Extent.reserve Extent.capacity
        rw [hblock]
        dsimp only
        split
        . rfl
        . next hlt =>
          have hsmall := capacityFor_le_of_fixed hfixed (Nat.le_of_not_lt hlt)
          simp only [hblock, Option.getD_some]
          omega
      by_cases hsize : e.size ≤ capacity
      . have hiff := le_capacityFor_iff (show e.size + (newSize - capacity) ≤ newSize by omega)
        have hfull : e.size + (newSize - capacity) = newSize ↔ e.size = capacity := by omega
        have hroom : newSize ≤ (Extent.capacity
            { e.reserve u.buffer.initialSize (newSize - capacity) with size := newSize })
            ↔ newSize ≤ capacityFor (e.size + (newSize - capacity)) := hreserve
        rw [hroom, hiff, hfull]
        simp only [hle, hsize, false_or, true_and, reduceCtorEq]
        constructor
        . rintro (heq | hclass)
          . exact Or.inl heq
          . by_cases heq : e.size = capacity
            . exact Or.inl heq
            . exact Or.inr ⟨by omega, hclass⟩
        . exact fun h => h.imp_right fun hclass => hclass.2
      . simp only [hle, hsize, false_or, false_and, reduceCtorEq]
        constructor
        . exact False.elim
        . rintro (heq | ⟨hlt, -⟩)
          . omega
          . omega

/--
For every buffer and for every message, the latter in the pieces in which it is serialized.
-/
theorem grows_iff (initialSize : Nat) {calls : List Call} {u : Use}
    (hrun : (machine initialSize).run (init initialSize) calls = some u) (newSize : Nat)
    (lens : List Nat) :
    (u.Grown newSize ↔ u.Growable newSize)
      ∧ ((∀ w ∈ (Extent.pack Extent.initialSize lens).writes, w.InBlock)
        ↔ ∀ before len after, 4 :: 4 :: lens = before ++ len :: after → 0 < len →
          ¬Extent.Overrun (before.sum + len)) := by
  constructor
  . obtain ⟨e, h⟩ := tracked_of_run hrun
    exact h.grown_iff newSize
  . exact Extent.pack_inBlock_iff lens

theorem grows_iff_appended :
    ∃ u, (machine 64).run (init 64) [.append [1, 2, 3, 4, 5, 6, 7, 8], .append [9, 10]] = some u
      ∧ u.Grown 120
      ∧ ¬∀ w ∈ (Extent.pack Extent.initialSize [18000]).writes, w.InBlock := by
  have hholds := (filled_init 64).holds
  obtain ⟨pool, b, happend, hinitial, h⟩ := hholds.append (Nat.le_refl _) [1, 2, 3, 4, 5, 6, 7, 8]
  obtain ⟨pool', b', happend', -, h'⟩ := h.append (show _ ≤ 64 by decide) [9, 10]
  have hrun : (machine 64).run (init 64) [.append [1, 2, 3, 4, 5, 6, 7, 8], .append [9, 10]]
      = some ⟨pool', b', []⟩ := by
    simp [Machine.run, machine, Use.step, happend, happend', put]
    rfl
  have hextent : (({} : Extent).append 64 8).append 64 2 = ⟨10, some 64⟩ := by decide
  have hsize : b'.size = 10 := h'.pos_eq.trans (congrArg Extent.size hextent)
  have hcapacity : b'.capacity pool' = 64 :=
    h'.capacity_eq.trans (congrArg Extent.capacity hextent)
  have hgrows := grows_iff 64 hrun 120 [18000]
  refine ⟨_, hrun, hgrows.1.mpr ?_, ?_⟩
  . unfold Growable
    dsimp only
    rw [hsize, hcapacity]
    exact Or.inr (Or.inr (Or.inr (by decide)))
  . intro hall
    exact hgrows.2.mp hall [4, 4] 18000 [] rfl (by decide) (Or.inl (by decide))
-- A byte in a block of 8192 bytes: `resize` to 8193 bytes leaves it at that.
theorem exists_not_grown :
    (∃ u, (machine 8192).run (init 8192) [.append [7]] = some u ∧ ¬u.Grown 8193)
      ∧ ∃ w ∈ (Extent.pack Extent.initialSize [18000]).writes, ¬w.InBlock := by
  constructor
  . have hholds := (filled_init 8192).holds
    obtain ⟨pool', b', happend, hinitial, h'⟩ := hholds.append (Nat.le_refl _) [7]
    refine ⟨⟨pool', b', []⟩, ?_, ?_⟩
    . simp [Machine.run, machine, Use.step, happend, put]
      rfl
    . have hextent : ({} : Extent).append (init 8192).buffer.initialSize [(7 : UInt8)].length
          = ⟨1, some 8192⟩ := by decide
      rw [hextent] at h'
      have htracked : Tracked ⟨pool', b', []⟩ ⟨1, some 8192⟩ := by
        refine ⟨⟨_, h'⟩, ?_⟩
        rintro capacity ⟨⟩
        decide
      rw [htracked.grown_iff_extent, hinitial]
      decide
  . have hnot := mt (Extent.pack_inBlock_iff [18000]).mp (by
      intro h
      apply h [4, 4] 18000 [] rfl (by decide)
      exact Or.inl (by decide))
    simpa using hnot

end Use
end ResizeBuffer
end Lax
