import Lax.Net.Buffer.Impl.ResizeBuffer
import Lax.Net.Buffer.Lemmas.BufferPool
import Lax.Net.Buffer.Lemmas.Extent

/-!
This module contains what each operation of a buffer does to its bytes and to its extent, while the
blocks come from a pool that it shares with others.
-/

namespace Lax
namespace ResizeBuffer

open BufferPool (le_capacityFor)

def extent (pool : BufferPool) (b : ResizeBuffer) : Extent :=
  ⟨b.pos, b.buf.map fun addr => (pool.block addr).capacity⟩

-- The buffer has a block of its own or none at all. It is of extent `e` and reads as `bytes`.
structure Holds (others : List Nat) (pool : BufferPool) (b : ResizeBuffer) (e : Extent)
    (bytes : List (Option UInt8)) : Prop where
  sound : pool.Sound (b.buf.toList ++ others)
  empty : b.buf = none → b.pos = 0
  extent_eq : extent pool b = e
  data_eq : b.data pool = bytes

variable {others : List Nat} {pool : BufferPool} {b : ResizeBuffer} {e : Extent}
  {bytes : List (Option UInt8)}

theorem capacity_extent (pool : BufferPool) (b : ResizeBuffer) :
    (extent pool b).capacity = b.capacity pool := by
  unfold extent Extent.capacity capacity
  cases b.buf <;> rfl

theorem Holds.pos_eq (h : Holds others pool b e bytes) : b.pos = e.size := by
  rw [← h.extent_eq]
  rfl

theorem Holds.capacity_eq (h : Holds others pool b e bytes) : b.capacity pool = e.capacity := by
  rw [← h.extent_eq, capacity_extent]

theorem take_write {α : Type} {xs : List α} {pos : Nat} (h : pos ≤ xs.length) (ys : List α) :
    (Slice.write xs pos ys).take (pos + ys.length) = xs.take pos ++ ys := by
  unfold Slice.write
  apply List.take_left'
  simp [Nat.min_eq_left h]

/-!
### Reserving
-/

-- The block is exchanged for a longer one: what was in it is copied, and it goes back to the pool.
theorem Holds.reserveMore {addr : Nat} (h : Holds others pool b e bytes) (hbuf : b.buf = some addr)
    (hpos : b.pos ≤ (pool.block addr).capacity) (len : Nat) :
    ∃ pool' b', reserveMore pool b addr len = some (pool', b')
      ∧ b'.initialSize = b.initialSize ∧ Holds others pool' b' (e.reserve b.initialSize len) bytes := by
  have hsound := h.sound
  have hdata := h.data_eq
  have hextent := h.extent_eq
  unfold ResizeBuffer.data at hdata
  unfold extent at hextent
  rw [hbuf] at hsound hdata hextent
  dsimp only [Option.toList, List.singleton_append, Option.map_some] at hsound hdata hextent
  subst hextent
  unfold ResizeBuffer.reserveMore Extent.reserve
  dsimp only
  split
  . next hlt =>
    have hallocated := hsound.alloc (b.pos + len)
    generalize pool.alloc (b.pos + len) = result at hallocated ⊢
    obtain ⟨nbuf, pool'⟩ := result
    have hframe := hallocated.frame addr List.mem_cons_self
    have hcapacity := hallocated.capacity
    have hle := le_capacityFor (b.pos + len)
    dsimp only at hframe hcapacity ⊢
    rw [hframe, hcapacity, if_pos ⟨hpos, by omega⟩]
    have hread : (Slice.read (pool.block addr).data 0 b.pos).length = b.pos :=
      Slice.length_read _ _ _ (by simpa [Block.capacity] using hpos)
    have hrange : 0 + (Slice.read (pool.block addr).data 0 b.pos).length
        ≤ (pool'.block nbuf).capacity := by
      rw [hread, hcapacity]
      omega
    have hwrite := (hallocated.sound.write hrange).perm (List.Perm.swap _ _ _)
    obtain ⟨hrelease, hblock⟩ := hwrite.release
    refine ⟨_, _, rfl, rfl, hrelease, by simp, ?_, ?_⟩
    . unfold extent
      dsimp only
      rw [Option.map_some, hblock, BufferPool.capacity_write _ hrange, hcapacity]
    . unfold ResizeBuffer.data
      dsimp only
      rw [hblock, BufferPool.block_write_self]
      have htake := take_write (Nat.zero_le (pool'.block nbuf).data.length)
        (Slice.read (pool.block addr).data 0 b.pos)
      rw [hread, Nat.zero_add] at htake
      rw [htake, ← hdata, Slice.read_zero]
      rfl
  . next hlt => exact ⟨pool, b, rfl, rfl, h.sound, h.empty, by simp [extent, hbuf], h.data_eq⟩

theorem Holds.reserve (h : Holds others pool b e bytes) (hsize : e.size ≤ e.capacity) (len : Nat) :
    ∃ pool' b', reserve pool b len = some (pool', b') ∧ b'.initialSize = b.initialSize
      ∧ Holds others pool' b' (e.reserve b.initialSize len) bytes := by
  have hcapacity := h.capacity_eq
  unfold ResizeBuffer.capacity at hcapacity
  unfold ResizeBuffer.reserve
  cases hbuf : b.buf with
  | none =>
    have hsound := h.sound
    have hdata := h.data_eq
    have hextent := h.extent_eq
    unfold ResizeBuffer.data at hdata
    unfold extent at hextent
    rw [hbuf] at hsound hdata hextent
    have hpos := h.empty hbuf
    have hallocated := hsound.alloc (max len b.initialSize)
    generalize pool.alloc (max len b.initialSize) = result at hallocated ⊢
    refine ⟨_, _, rfl, rfl, hallocated.sound, by simp, ?_, ?_⟩
    . subst hextent
      simp [extent, Extent.reserve, hallocated.capacity]
    . subst hdata
      simp [ResizeBuffer.data, hpos]
  | some addr =>
    rw [hbuf] at hcapacity
    apply h.reserveMore hbuf
    dsimp only at hcapacity
    rw [h.pos_eq, hcapacity]
    exact hsize

/-!
### The operations
-/

theorem Holds.empty_extent (h : Holds others pool b e bytes) : e.block = none → e.size = 0 := by
  intro hblock
  rw [← h.extent_eq] at hblock
  rw [← h.pos_eq]
  apply h.empty
  simpa [extent] using hblock

theorem Holds.append (h : Holds others pool b e bytes) (hsize : e.size ≤ e.capacity)
    (p : List UInt8) :
    ∃ pool' b', append pool b p = some (pool', b') ∧ b'.initialSize = b.initialSize
      ∧ Holds others pool' b' (e.append b.initialSize p.length) (bytes ++ p.map some) := by
  obtain ⟨pool', b', hreserve, hinitial, h'⟩ := h.reserve hsize p.length
  have hroom := Extent.le_capacity_reserve b.initialSize h.empty_extent p.length
  have hpos := h'.pos_eq
  have hcapacity := h'.capacity_eq
  have hextent := h'.extent_eq
  have hdata := h'.data_eq
  have hsound := h'.sound
  rw [Extent.size_reserve] at hpos
  unfold ResizeBuffer.append
  rw [hreserve]
  cases hbuf : b'.buf with
  | none =>
    have hsome := Extent.isSome_reserve b.initialSize e p.length
    rw [← hextent] at hsome
    simp [extent, hbuf] at hsome
  | some addr =>
    unfold ResizeBuffer.capacity at hcapacity
    unfold ResizeBuffer.data at hdata
    rw [hbuf] at hcapacity hdata hsound
    dsimp only at hcapacity hdata
    have hrange : b'.pos + (p.map some).length ≤ (pool'.block addr).capacity := by
      rw [List.length_map, hcapacity, hpos]
      exact hroom
    have hrange' : b'.pos + p.length ≤ (pool'.block addr).capacity := by
      simpa using hrange
    refine ⟨pool'.write addr b'.pos (p.map some), { b' with pos := b'.pos + p.length }, ?_, hinitial,
      ?_, ?_, ?_, ?_⟩
    . simp [hbuf, hrange']
    . rw [hbuf]
      exact hsound.write hrange
    . simp [hbuf]
    . unfold Extent.append
      rw [← hextent]
      simp [extent, hbuf, BufferPool.capacity_write addr hrange]
    . unfold ResizeBuffer.data
      rw [hbuf]
      dsimp only
      rw [BufferPool.block_write_self, ← hdata]
      have hle : b'.pos ≤ (pool'.block addr).data.length := by
        unfold Block.capacity at hrange
        omega
      have htake := take_write hle (p.map some)
      rwa [List.length_map] at htake

theorem Holds.rewind (h : Holds others pool b e bytes) (pos : Nat) :
    Holds others pool (b.rewind pos) (e.rewind pos) (if pos ≥ e.size then bytes else bytes.take pos) := by
  have hpos := h.pos_eq
  unfold ResizeBuffer.rewind Extent.rewind size
  rw [hpos]
  split
  . exact h
  . next hlt =>
    constructor
    . exact h.sound
    . intro hbuf
      have hzero := h.empty hbuf
      omega
    . simp [← h.extent_eq, extent]
    . have hdata := h.data_eq
      unfold data at hdata ⊢
      dsimp only
      cases hbuf : b.buf with
      | none =>
        have hzero := h.empty hbuf
        omega
      | some addr =>
        rw [hbuf] at hdata
        dsimp only at hdata ⊢
        rw [← hdata, List.take_take, Nat.min_eq_left (by omega)]

theorem Holds.popFront (h : Holds others pool b e bytes) (hsize : e.size ≤ e.capacity) (count : Nat) :
    ∃ pool' b', popFront pool b count = some (pool', b') ∧ b'.initialSize = b.initialSize
      ∧ Holds others pool' b' (e.popFront count) (bytes.drop (min count e.size)) := by
  have hpos := h.pos_eq
  have hextent := h.extent_eq
  unfold ResizeBuffer.popFront
  cases hbuf : b.buf with
  | none =>
    have hzero := h.empty hbuf
    refine ⟨pool, b, rfl, rfl, h.sound, h.empty, ?_, ?_⟩
    . simp [← hextent, Extent.popFront, extent, hbuf]
    . rw [h.data_eq, ← hpos, hzero, Nat.min_zero, List.drop_zero]
  | some addr =>
    have hcapacity := h.capacity_eq
    have hdata := h.data_eq
    have hsound := h.sound
    unfold capacity at hcapacity
    unfold data at hdata
    rw [hbuf] at hcapacity hdata hsound
    have hblock : e.block = some (pool.block addr).capacity := by
      simp [← hextent, extent, hbuf]
    dsimp only at hcapacity hdata ⊢
    unfold Extent.popFront
    rw [hblock]
    split
    . next hzero =>
      subst hzero
      refine ⟨pool, b, rfl, rfl, h.sound, h.empty, ?_, ?_⟩
      . simp [← hextent, extent, hbuf]
      . simpa using h.data_eq
    . have hle : b.pos ≤ (pool.block addr).capacity := by
        rw [hpos, hcapacity]
        exact hsize
      rw [if_pos (Or.inr hle)]
      unfold size
      rw [hpos] at hdata hle ⊢
      have hread : (Slice.read (pool.block addr).data (min count e.size)
          (e.size - min count e.size)).length = e.size - min count e.size := by
        apply Slice.length_read
        unfold Block.capacity at hle
        omega
      have hrange : 0 + (Slice.read (pool.block addr).data (min count e.size)
          (e.size - min count e.size)).length ≤ (pool.block addr).capacity := by
        rw [hread]
        omega
      refine ⟨_, _, rfl, rfl, ?_, ?_, ?_, ?_⟩
      . exact hsound.write hrange
      . simp
      . simp [extent, BufferPool.capacity_write addr hrange]
      . unfold data
        dsimp only
        have htake := take_write (Nat.zero_le (pool.block addr).data.length)
          (Slice.read (pool.block addr).data (min count e.size) (e.size - min count e.size))
        rw [hread, Nat.zero_add] at htake
        rw [BufferPool.block_write_self, htake, ← hdata, List.drop_take]
        rfl

-- What is read up to the old and the new size is the same.
theorem Holds.withPos (h : Holds others pool b e bytes) {pos : Nat} (hpos : b.buf = none → pos = 0) :
    ∃ bytes', Holds others pool { b with pos := pos } { e with size := pos } bytes'
      ∧ bytes'.take (min e.size pos) = bytes.take (min e.size pos) := by
  refine ⟨_, ⟨h.sound, hpos, ?_, rfl⟩, ?_⟩
  . simp [← h.extent_eq, extent]
  . rw [← h.data_eq, ← h.pos_eq]
    unfold data
    cases b.buf with
    | none => rfl
    | some addr =>
      dsimp only
      rw [List.take_take, List.take_take]
      congr 1
      omega

theorem Holds.resize (h : Holds others pool b e bytes) {newSize : Nat}
    (hsize : e.size ≤ e.capacity ∨ newSize ≤ e.capacity) :
    ∃ pool' b' bytes', resize pool b newSize = some (pool', b') ∧ b'.initialSize = b.initialSize
      ∧ Holds others pool' b' (e.resize b.initialSize newSize) bytes'
      ∧ bytes'.take (min e.size newSize) = bytes.take (min e.size newSize) := by
  unfold ResizeBuffer.resize Extent.resize
  rw [h.capacity_eq]
  split
  . next hle =>
    have hpos : b.buf = none → newSize = 0 := by
      intro hbuf
      rw [← h.capacity_eq] at hle
      simpa [capacity, hbuf] using hle
    obtain ⟨bytes', h', htake⟩ := h.withPos hpos
    exact ⟨_, _, bytes', rfl, rfl, h', htake⟩
  . next hlt =>
    have hle : e.size ≤ e.capacity := by omega
    obtain ⟨pool', b', hreserve, hinitial, h'⟩ := h.reserve hle (newSize - e.capacity)
    have hpos : b'.buf = none → newSize = 0 := by
      intro hbuf
      have hsome := Extent.isSome_reserve b.initialSize e (newSize - e.capacity)
      rw [← h'.extent_eq] at hsome
      simp [extent, hbuf] at hsome
    obtain ⟨bytes', h'', htake⟩ := h'.withPos hpos
    rw [Extent.size_reserve] at htake
    refine ⟨pool', { b' with pos := newSize }, bytes', ?_, hinitial, h'', htake⟩
    simp [hreserve]

/-!
### What the others do
-/

theorem Holds.frame {others' : List Nat} {pool' : BufferPool} (h : Holds others pool b e bytes)
    (hsound : pool'.Sound (b.buf.toList ++ others'))
    (hframe : ∀ addr ∈ b.buf.toList, pool'.block addr = pool.block addr) :
    Holds others' pool' b e bytes := by
  have hextent := h.extent_eq
  have hdata := h.data_eq
  unfold extent at hextent
  unfold data at hdata
  refine ⟨hsound, h.empty, ?_, ?_⟩
  . unfold extent
    cases hbuf : b.buf with
    | none => simpa [hbuf] using hextent
    | some addr =>
      rw [Option.map_some, hframe addr (by simp [hbuf])]
      simpa [hbuf] using hextent
  . unfold data
    cases hbuf : b.buf with
    | none => simpa [hbuf] using hdata
    | some addr =>
      dsimp only
      rw [hframe addr (by simp [hbuf])]
      simpa [hbuf] using hdata

theorem Holds.otherTakes (h : Holds others pool b e bytes) (n : Nat) :
    Holds (others ++ [(pool.alloc n).1]) (pool.alloc n).2 b e bytes := by
  have hallocated := h.sound.alloc n
  apply h.frame
  . apply hallocated.sound.perm
    rw [← List.append_assoc]
    exact (List.perm_append_singleton _ _).symm
  . exact fun addr haddr => hallocated.frame addr (List.mem_append_left _ haddr)

theorem Holds.otherWrites {addr pos : Nat} {written : List (Option UInt8)}
    (h : Holds others pool b e bytes) (haddr : addr ∈ others)
    (hrange : pos + written.length ≤ (pool.block addr).capacity) :
    Holds others (pool.write addr pos written) b e bytes := by
  apply h.frame (h.sound.write hrange)
  intro addr' haddr'
  apply BufferPool.block_write_of_ne
  rintro rfl
  have hapart := h.sound.apart.sublist (List.sublist_append_left _ _)
  exact hapart.not_mem_of_append haddr haddr'

theorem Holds.otherGives {i addr : Nat} (h : Holds others pool b e bytes)
    (hi : others[i]? = some addr) : Holds (others.eraseIdx i) (pool.release addr) b e bytes := by
  obtain ⟨hlt, rfl⟩ := List.getElem?_eq_some_iff.mp hi
  have hperm : (b.buf.toList ++ others).Perm (others[i] :: (b.buf.toList ++ others.eraseIdx i)) := by
    apply List.Perm.trans _ List.perm_middle
    apply List.Perm.append_left
    exact (List.getElem_cons_eraseIdx_perm hlt).symm
  obtain ⟨hsound, hblock⟩ := (h.sound.perm hperm).release
  apply h.frame hsound
  intro addr _
  rw [hblock]

/-!
### A list of bytes
-/

-- What a call does to a plain list of bytes.
def content (bytes : List UInt8) : Call → List UInt8
  | .append p => bytes ++ p
  | .rewind pos => if pos < bytes.length then bytes.take pos else bytes
  | .popFront count => bytes.drop (min count bytes.length)
  | _ => bytes

namespace Use

theorem step_otherWrites {u : Use} (h : Holds u.others u.pool u.buffer e bytes) (i pos : Nat)
    (written : List UInt8) :
    ∃ u', step u (.otherWrites i pos written) = some u' ∧ Holds u'.others u'.pool u'.buffer e bytes := by
  unfold step
  dsimp only
  split
  . next addr hi =>
    split
    . next hrange =>
      have hrange' : pos + (written.map some).length ≤ (u.pool.block addr).capacity := by
        rwa [List.length_map]
      exact ⟨_, rfl, h.otherWrites (List.mem_of_getElem? hi) hrange'⟩
    . exact ⟨u, rfl, h⟩
  . exact ⟨u, rfl, h⟩

theorem step_otherGives {u : Use} (h : Holds u.others u.pool u.buffer e bytes) (i : Nat) :
    ∃ u', step u (.otherGives i) = some u' ∧ Holds u'.others u'.pool u'.buffer e bytes := by
  unfold step
  dsimp only
  split
  . next addr hi => exact ⟨_, rfl, h.otherGives hi⟩
  . exact ⟨u, rfl, h⟩

structure Reads (u : Use) (bytes : List UInt8) : Prop where
  data_eq : u.buffer.data u.pool = bytes.map some
  size_eq : u.buffer.size = bytes.length
  size_le : u.buffer.size ≤ u.buffer.capacity u.pool

-- The buffer reads as `bytes`, and its block belongs to nobody else.
structure Filled (u : Use) (e : Extent) (bytes : List UInt8) : Prop where
  holds : Holds u.others u.pool u.buffer e (bytes.map some)
  size_eq : e.size = bytes.length
  size_le : e.size ≤ e.capacity

theorem Filled.reads {u : Use} {bytes : List UInt8} (h : Filled u e bytes) : u.Reads bytes := by
  have hpos := h.holds.pos_eq
  constructor
  . exact h.holds.data_eq
  . exact hpos.trans h.size_eq
  . unfold size
    rw [h.holds.capacity_eq, hpos]
    exact h.size_le

theorem filled_init (initialSize : Nat) : Filled (init initialSize) {} [] :=
  ⟨⟨BufferPool.sound_init, fun _ => rfl, rfl, rfl⟩, rfl, Nat.le_refl _⟩

theorem Filled.step {u : Use} {bytes : List UInt8} (h : Filled u e bytes) {c : Call}
    (hc : ∀ newSize, c ≠ .resize newSize) :
    ∃ u' e', step u c = some u' ∧ Filled u' e' (content bytes c) := by
  have hholds := h.holds
  have hsize := h.size_eq
  have hle := h.size_le
  cases c with
  | append p =>
    obtain ⟨pool', b', happend, -, h'⟩ := hholds.append hle p
    rw [← List.map_append] at h'
    refine ⟨⟨pool', b', u.others⟩, _, by simp [Use.step, happend, put], h', ?_,
      Extent.size_le_append _ hholds.empty_extent _⟩
    simp [Extent.append, Extent.size_reserve, content, hsize]
  | rewind pos =>
    have h' := hholds.rewind pos
    have hif : (if pos ≥ e.size then bytes.map some else (bytes.map some).take pos)
        = (content bytes (.rewind pos)).map some := by
      dsimp only [content]
      rw [hsize]
      by_cases hlt : pos < bytes.length
      . rw [if_neg (Nat.not_le_of_lt hlt), if_pos hlt, List.map_take]
      . rw [if_pos (Nat.le_of_not_lt hlt), if_neg hlt]
    rw [hif] at h'
    refine ⟨⟨u.pool, u.buffer.rewind pos, u.others⟩, _, rfl, h', ?_, Extent.size_le_rewind hle pos⟩
    dsimp only [Extent.rewind, content]
    rw [hsize]
    by_cases hlt : pos < bytes.length
    . rw [if_neg (Nat.not_le_of_lt hlt), if_pos hlt, List.length_take, Nat.min_eq_left (Nat.le_of_lt hlt)]
    . rw [if_pos (Nat.le_of_not_lt hlt), if_neg hlt, hsize]
  | popFront count =>
    obtain ⟨pool', b', hpop, -, h'⟩ := hholds.popFront hle count
    rw [← List.map_drop, hsize] at h'
    refine ⟨⟨pool', b', u.others⟩, _, by simp [Use.step, hpop, put], h', ?_,
      Extent.size_le_popFront hle count⟩
    dsimp only [Extent.popFront, content]
    cases hblock : e.block with
    | none =>
      have hzero := hholds.empty_extent hblock
      simp
      omega
    | some capacity => simp [hsize]
  | resize newSize => exact absurd rfl (hc newSize)
  | otherTakes n => exact ⟨_, e, rfl, hholds.otherTakes n, hsize, hle⟩
  | otherWrites i pos written =>
    obtain ⟨u', hstep, h'⟩ := step_otherWrites hholds i pos written
    exact ⟨u', e, hstep, h', hsize, hle⟩
  | otherGives i =>
    obtain ⟨u', hstep, h'⟩ := step_otherGives hholds i
    exact ⟨u', e, hstep, h', hsize, hle⟩

theorem Filled.run {initialSize : Nat} {u : Use} {bytes : List UInt8} (h : Filled u e bytes)
    {calls : List Call} (hcalls : ∀ c ∈ calls, ∀ newSize, c ≠ .resize newSize) :
    ∃ u' e', (machine initialSize).run u calls = some u' ∧ Filled u' e' (calls.foldl content bytes) := by
  induction calls generalizing u e bytes with
  | nil => exact ⟨u, e, rfl, h⟩
  | cons c calls ih =>
    rw [List.forall_mem_cons] at hcalls
    obtain ⟨mid, e', hmid, h'⟩ := h.step hcalls.1
    obtain ⟨u', e'', hrun, h''⟩ := ih h' hcalls.2
    exact ⟨u', e'', Option.bind_eq_some_iff.mpr ⟨mid, hmid, hrun⟩, h''⟩

/--
Without `resize`, the buffer never fails and reads as what has been appended to it, whatever others do
with the pool meanwhile.
-/
theorem reads_of_run (initialSize : Nat) {calls : List Call}
    (hcalls : ∀ c ∈ calls, ∀ newSize, c ≠ .resize newSize) :
    ∃ u, (machine initialSize).run (init initialSize) calls = some u
      ∧ u.Reads (calls.foldl content []) := by
  obtain ⟨u, e, hrun, h⟩ := @Filled.run _ initialSize _ _ (filled_init initialSize) _ hcalls
  exact ⟨u, hrun, h.reads⟩

theorem reads_of_run_moved :
    ∃ u, (machine 64).run (init 64)
        [.append [1, 2, 3], .otherTakes 128, .append (List.replicate 70 7), .popFront 2, .rewind 5]
        = some u ∧ u.Reads [3, 7, 7, 7, 7] := by
  apply reads_of_run
  simp

end Use
end ResizeBuffer
end Lax
