import Lax.Net.BitsProtocol.Impl.SendBuffer
import Lax.Net.BitsProtocol.Lemmas.Message
import Lax.Net.Buffer.Lemmas.Resize
import Lax.Net.Modifier.Lemmas.Cipher

/-!
This module contains which bytes `send` hands on, and that they do not depend on how it has got its
buffer.
-/

namespace Lax
namespace ResizeBuffer

variable {others : List Nat} {pool : BufferPool} {b : ResizeBuffer} {e : Extent} {bytes : List UInt8}

/-!
### Reading and writing what has been written before
-/

theorem mapM_map_some (bytes : List UInt8) : (bytes.map some).mapM id = some bytes := by
  induction bytes with
  | nil => rfl
  | cons byte bytes ih =>
    rw [List.map_cons, List.mapM_cons, ih]
    rfl

theorem read_take {α : Type} (xs : List α) {pos len n : Nat} (h : pos + len ≤ n) :
    Slice.read (xs.take n) pos len = Slice.read xs pos len := by
  unfold Slice.read
  rw [List.drop_take, List.take_take, Nat.min_eq_left (by omega)]

theorem write_take {α : Type} (xs ys : List α) {pos n : Nat} (h : pos + ys.length ≤ n)
    (hn : n ≤ xs.length) : (Slice.write xs pos ys).take n = Slice.write (xs.take n) pos ys := by
  have htake : (xs.take n).length = n := by
    rw [List.length_take, Nat.min_eq_left hn]
  have hwrite := Slice.write_middle [] (xs.take n) (xs.drop n) ys pos (by omega)
  rw [List.nil_append, List.nil_append, List.take_append_drop, List.length_nil, Nat.zero_add] at hwrite
  rw [hwrite]
  apply List.take_left'
  rw [Slice.length_write _ _ _ (by omega), htake]

theorem map_write {α β : Type} (f : α → β) (xs ys : List α) (pos : Nat) :
    (Slice.write xs pos ys).map f = Slice.write (xs.map f) pos (ys.map f) := by
  simp [Slice.write]

-- The buffer reads as `bytes`.
def Carries (others : List Nat) (pool : BufferPool) (b : ResizeBuffer) (bytes : List UInt8) : Prop :=
  ∃ e, Use.Filled ⟨pool, b, others⟩ e bytes

theorem Carries.size_eq (h : Carries others pool b bytes) : b.size = bytes.length := by
  obtain ⟨e, h⟩ := h
  exact h.holds.pos_eq.trans h.size_eq

theorem Carries.append (h : Carries others pool b bytes) (p : List UInt8) :
    ∃ pool' b', b.append pool p = some (pool', b') ∧ Carries others pool' b' (bytes ++ p) := by
  obtain ⟨e, h⟩ := h
  obtain ⟨pool', b', happend, -, h'⟩ := h.holds.append h.size_le p
  rw [← List.map_append] at h'
  refine ⟨pool', b', happend, _, h', ?_, Extent.size_le_append _ h.holds.empty_extent _⟩
  have hsize := h.size_eq
  simp [Extent.append, Extent.size_reserve, hsize]

theorem Carries.exists_block (h : Carries others pool b bytes) (hne : bytes ≠ []) :
    ∃ addr, b.buf = some addr ∧ bytes.length ≤ (pool.block addr).capacity
      ∧ (pool.block addr).data.take bytes.length = bytes.map some := by
  have hsize := h.size_eq
  obtain ⟨e, h⟩ := h
  have hreads := h.reads
  have hdata := hreads.data_eq
  have hle := hreads.size_le
  unfold data at hdata
  unfold capacity at hle
  dsimp only at hdata hle
  cases hbuf : b.buf with
  | none =>
    rw [hbuf] at hdata
    exact absurd (List.map_eq_nil_iff.mp hdata.symm) hne
  | some addr =>
    rw [hbuf] at hdata hle
    unfold size at hsize hle
    rw [hsize] at hdata hle
    exact ⟨addr, rfl, hle, hdata⟩

theorem Carries.readAt (h : Carries others pool b bytes) (hne : bytes ≠ []) (pos len : Nat)
    (hrange : pos + len ≤ bytes.length) : b.readAt pool pos len = some (Slice.read bytes pos len) := by
  obtain ⟨addr, hbuf, hle, hdata⟩ := h.exists_block hne
  have hread : Slice.read (pool.block addr).data pos len = (Slice.read bytes pos len).map some := by
    rw [← read_take _ hrange, hdata]
    simp [Slice.read]
  unfold ResizeBuffer.readAt
  rw [hbuf, Option.bind_eq_bind, Option.bind_some, if_pos (Nat.le_trans hrange hle), hread,
    mapM_map_some]

theorem Carries.readAll (h : Carries others pool b bytes) (hle : headerLength ≤ bytes.length) :
    b.readAt pool 0 b.size = some bytes := by
  have hne : bytes ≠ [] := List.ne_nil_of_length_pos (Nat.lt_of_lt_of_le (by decide) hle)
  rw [h.size_eq, h.readAt hne 0 bytes.length (by omega), Slice.read_zero, List.take_length]

theorem Carries.writeAt (h : Carries others pool b bytes) (hne : bytes ≠ []) (pos : Nat)
    (p : List UInt8) (hrange : pos + p.length ≤ bytes.length) :
    ∃ pool', b.writeAt pool pos p = some pool'
      ∧ Carries others pool' b (Slice.write bytes pos p) := by
  obtain ⟨addr, hbuf, hle, hdata⟩ := h.exists_block hne
  have hsize := h.size_eq
  obtain ⟨e, h⟩ := h
  have hsound := h.holds.sound
  have hrange' : pos + (p.map some).length ≤ (pool.block addr).capacity := by
    rw [List.length_map]
    exact Nat.le_trans hrange hle
  refine ⟨pool.write addr pos (p.map some), ?_, e, ⟨?_, ?_, ?_, ?_⟩, ?_, h.size_le⟩
  . unfold ResizeBuffer.writeAt
    rw [hbuf, Option.bind_eq_bind, Option.bind_some, if_pos (Or.inr (Nat.le_trans hrange hle))]
  . exact hsound.write hrange'
  . exact h.holds.empty
  . rw [← h.holds.extent_eq]
    simp [extent, hbuf, BufferPool.capacity_write _ hrange']
  . unfold data
    dsimp only
    rw [hbuf]
    dsimp only
    unfold size at hsize
    rw [BufferPool.block_write_self, hsize, map_write, ← hdata, write_take]
    . rwa [List.length_map]
    . exact hle
  . rw [Slice.length_write _ _ _ hrange]
    exact h.size_eq

theorem Carries.updateLengthField (h : Carries others pool b bytes) (hle : 4 ≤ bytes.length)
    (newLen : Nat) :
    ∃ pool', b.updateLengthField pool 0 newLen = some pool'
      ∧ Carries others pool' b (Lax.updateLengthField bytes 0 newLen) := by
  have hne : bytes ≠ [] := List.ne_nil_of_length_pos (Nat.lt_of_lt_of_le (by decide) hle)
  apply h.writeAt hne 0
  rw [length_lengthField]
  exact Nat.le_trans (by decide) hle

/-!
### The serializer
-/

-- The extents of a buffer into which at most 18752 bytes are packed. The last one has bytes for which there
-- is no room in the block.
def Early (e : Extent) : Prop :=
  e ∈ [(⟨128, some 8192⟩ : Extent), ⟨8192, some 8192⟩, ⟨12416, some 16384⟩, ⟨18752, some 16384⟩]

theorem Early.cases {e : Extent} (h : Early e) :
    (e.size = 18752 ∧ e.capacity = 16384)
      ∨ e.size < 18752 ∧ e.size ≤ e.capacity
        ∧ ∀ initialSize, Early (e.increaseBufferSize initialSize) := by
  simp only [Early, List.mem_cons, List.not_mem_nil, or_false] at h
  rcases h with rfl | rfl | rfl | rfl
  . right
    refine ⟨by decide, by decide, ?_⟩
    intro initialSize
    have hgrown : (⟨128, some 8192⟩ : Extent).increaseBufferSize initialSize = ⟨8192, some 8192⟩ := rfl
    simp [Early, hgrown]
  . right
    refine ⟨by decide, by decide, ?_⟩
    intro initialSize
    have hgrown : (⟨8192, some 8192⟩ : Extent).increaseBufferSize initialSize
        = ⟨12416, some 16384⟩ := rfl
    simp [Early, hgrown]
  . right
    refine ⟨by decide, by decide, ?_⟩
    intro initialSize
    have hgrown : (⟨12416, some 16384⟩ : Extent).increaseBufferSize initialSize
        = ⟨18752, some 16384⟩ := rfl
    simp [Early, hgrown]
  . exact Or.inl ⟨rfl, rfl⟩

theorem Early.capacity_bounds {e : Extent} (h : Early e) :
    0 < e.capacity ∧ e.capacity ≤ 16384 := by
  simp only [Early, List.mem_cons, List.not_mem_nil, or_false] at h
  rcases h with rfl | rfl | rfl | rfl <;> decide

theorem Holds.increase {content : List (Option UInt8)} (h : Holds others pool b e content)
    (hsize : e.size ≤ e.capacity) :
    ∃ pool' b' content', b.increaseBufferSize pool = some (pool', b')
      ∧ Holds others pool' b' (e.increaseBufferSize b.initialSize) content'
      ∧ content'.take e.size = content.take e.size := by
  obtain ⟨pool', b', content', hresize, -, h', htake⟩ := @Holds.resize others pool b e content h
    (max (Extent.increasedSize e.size) e.capacity) (Or.inl hsize)
  have hlt := Extent.lt_increasedSize e.size
  rw [Nat.min_eq_left (by omega)] at htake
  refine ⟨pool', b', content', ?_, h', htake⟩
  unfold ResizeBuffer.increaseBufferSize
  unfold size
  rw [h.pos_eq, h.capacity_eq]
  exact hresize

-- The copy would begin behind the end of the block.
theorem Holds.increase_eq_none {content : List (Option UInt8)} (h : Holds others pool b e content)
    (hsize : e.capacity < e.size) : b.increaseBufferSize pool = none := by
  have hlt := Extent.lt_increasedSize e.size
  unfold ResizeBuffer.increaseBufferSize
  unfold size
  rw [h.pos_eq, h.capacity_eq]
  exact h.resize_eq_none (by omega) (by omega)

theorem Holds.growTo {content : List (Option UInt8)} (h : Holds others pool b e content)
    (he : Early e) (stop : Nat) :
    (18752 < stop ∧ b.growTo pool stop = none)
      ∨ ∃ pool' b' e' content', b.growTo pool stop = some (pool', b')
        ∧ Holds others pool' b' e' content' ∧ Early e' ∧ stop ≤ e'.size ∧ e.size ≤ e'.size
        ∧ content'.take e.size = content.take e.size := by
  fun_induction ResizeBuffer.growTo pool b stop generalizing e content with
  | case1 pool b hle =>
    right
    exact ⟨pool, b, e, content, rfl, h, he, h.pos_eq ▸ hle, Nat.le_refl _, rfl⟩
  | case2 pool b hlt hnone =>
    left
    rcases he.cases with ⟨hsize, hcapacity⟩ | ⟨-, hle, -⟩
    . have hpos : b.size = e.size := h.pos_eq
      exact ⟨by omega, rfl⟩
    . obtain ⟨pool', b', content', hincrease, -⟩ := h.increase hle
      rw [hnone] at hincrease
      cases hincrease
  | case3 pool b hlt pool' b' hgrown ih =>
    rcases he.cases with ⟨hsize, hcapacity⟩ | ⟨-, hle, hnext⟩
    . have hnone := h.increase_eq_none (by omega)
      rw [hgrown] at hnone
      cases hnone
    . obtain ⟨pool'', b'', content', hincrease, h', htake⟩ := h.increase hle
      rw [hgrown] at hincrease
      cases hincrease
      have hlt' := Extent.size_lt_increaseBufferSize b.initialSize e
      rcases ih h' (hnext _) with hfail | ⟨pool₂, b₂, e₂, content₂, hgrow, h₂, he₂, hstop, hle₂, htake₂⟩
      . exact Or.inl hfail
      . right
        refine ⟨pool₂, b₂, e₂, content₂, hgrow, h₂, he₂, hstop, by omega, ?_⟩
        rw [← htake, ← Nat.min_eq_left (Nat.le_of_lt hlt'), ← List.take_take, htake₂, List.take_take]

-- The serializer has written `written`, and there is room for at least that much.
structure Written (others : List Nat) (pool : BufferPool) (b : ResizeBuffer) (e : Extent)
    (written : List UInt8) : Prop where
  early : Early e
  size : written.length ≤ e.size
  capacity : written.length ≤ e.capacity
  holds : ∃ content, Holds others pool b e content
    ∧ content.take written.length = written.map some

theorem Holds.length_le {content : List (Option UInt8)} (h : Holds others pool b e content) :
    content.length ≤ e.capacity := by
  rw [← h.capacity_eq, ← h.data_eq]
  unfold ResizeBuffer.data ResizeBuffer.capacity
  cases b.buf with
  | none => exact Nat.le_refl _
  | some addr =>
    rw [List.length_take]
    exact Nat.min_le_right _ _

variable {written : List UInt8}

theorem Written.growTo (h : Written others pool b e written) {stop : Nat}
    (hstop : written.length ≤ stop) :
    (16384 < stop ∧ b.growTo pool stop = none)
      ∨ ∃ pool' b' e', b.growTo pool stop = some (pool', b') ∧ Written others pool' b' e' written
        ∧ stop ≤ e'.size := by
  obtain ⟨content, hholds, htake⟩ := h.holds
  rcases hholds.growTo h.early stop with ⟨hlt, hnone⟩ |
    ⟨pool', b', e', content', hgrow, hholds', hearly', hstop', hle, htake'⟩
  . exact Or.inl ⟨by omega, hnone⟩
  . have hkept : content'.take written.length = written.map some := by
      rw [← htake, ← Nat.min_eq_left h.size, ← List.take_take, htake', List.take_take]
    have hlength : written.length ≤ content'.length := by
      have hlength := congrArg List.length hkept
      rw [List.length_take, List.length_map] at hlength
      omega
    right
    refine ⟨pool', b', e', hgrow, ⟨hearly', ?_, ?_, content', hholds', hkept⟩, hstop'⟩
    . exact Nat.le_trans hstop hstop'
    . exact Nat.le_trans hlength hholds'.length_le

theorem Written.writeAt (h : Written others pool b e written) {piece : List UInt8}
    (hsize : written.length + piece.length ≤ e.size)
    (hcapacity : written.length + piece.length ≤ e.capacity) :
    ∃ pool', b.writeAt pool written.length piece = some pool'
      ∧ Written others pool' b e (written ++ piece) := by
  obtain ⟨content, hholds, htake⟩ := h.holds
  have hsound := hholds.sound
  have hdata := hholds.data_eq
  have hpos := hholds.pos_eq
  have hcap := hholds.capacity_eq
  unfold ResizeBuffer.data at hdata
  unfold ResizeBuffer.capacity at hcap
  cases hbuf : b.buf with
  | none =>
    have hroom := h.early.capacity_bounds.1
    rw [hbuf] at hcap
    dsimp only at hcap
    omega
  | some addr =>
    rw [hbuf] at hdata hcap hsound
    dsimp only at hdata hcap
    have hrange : written.length + (piece.map some).length ≤ (pool.block addr).capacity := by
      rw [List.length_map, hcap]
      exact hcapacity
    have hblock : ((pool.write addr written.length (piece.map some)).block addr).data
        = Slice.write (pool.block addr).data written.length (piece.map some) :=
      BufferPool.block_write_self _ _ _ _
    have hsize' : (written ++ piece).length ≤ e.size := by
      rwa [List.length_append]
    have hcapacity' : (written ++ piece).length ≤ e.capacity := by
      rwa [List.length_append]
    refine ⟨pool.write addr written.length (piece.map some), ?_, h.early, hsize', hcapacity',
      _, ⟨?_, hholds.empty, ?_, rfl⟩, ?_⟩
    . unfold ResizeBuffer.writeAt
      rw [hbuf, Option.bind_eq_bind, Option.bind_some, if_pos]
      rw [hcap]
      exact Or.inr hcapacity
    . rw [hbuf]
      exact hsound.write hrange
    . rw [← hholds.extent_eq]
      simp [extent, hbuf, BufferPool.capacity_write _ hrange]
    . unfold ResizeBuffer.data
      rw [hbuf]
      dsimp only
      have hle : written.length ≤ (pool.block addr).data.length := by
        unfold Block.capacity at hrange
        omega
      have hwrite := take_write hle (piece.map some)
      rw [List.length_map] at hwrite
      have hbefore : (pool.block addr).data.take written.length = written.map some := by
        rw [← htake, ← hdata, List.take_take, hpos, Nat.min_eq_left h.size]
      rw [hblock, List.take_take, hpos, Nat.min_eq_left hsize', List.length_append, hwrite, hbefore,
        List.map_append]

theorem Written.writeAt_eq_none (h : Written others pool b e written) {piece : List UInt8}
    (hcapacity : e.capacity < written.length + piece.length) :
    b.writeAt pool written.length piece = none := by
  obtain ⟨content, hholds, -⟩ := h.holds
  have hcap := hholds.capacity_eq
  have hne : piece ≠ [] := by
    rintro rfl
    exact Nat.not_lt_of_le h.capacity hcapacity
  unfold ResizeBuffer.capacity at hcap
  unfold ResizeBuffer.writeAt
  cases hbuf : b.buf with
  | none => rfl
  | some addr =>
    rw [hbuf] at hcap
    dsimp only at hcap
    rw [Option.bind_eq_bind, Option.bind_some, if_neg]
    rw [hcap, not_or]
    exact ⟨hne, Nat.not_le_of_lt hcapacity⟩

-- All of the pieces get into the block, or one of them gets behind the end of it.
theorem Written.writeAll (h : Written others pool b e written) (pieces : List (List UInt8)) :
    ((written ++ pieces.flatten).length ≤ 16384 ∧ ∃ pool' b' e',
        b.writeAll pool written.length pieces
          = some ((pool', b'), (written ++ pieces.flatten).length)
        ∧ Written others pool' b' e' (written ++ pieces.flatten))
      ∨ (16384 < (written ++ pieces.flatten).length
        ∧ b.writeAll pool written.length pieces = none) := by
  induction pieces generalizing pool b e written with
  | nil =>
    left
    rw [List.flatten_nil, List.append_nil]
    exact ⟨Nat.le_trans h.capacity h.early.capacity_bounds.2, pool, b, e, rfl, h⟩
  | cons piece pieces ih =>
    have hlength : written.length + piece.length ≤ (written ++ (piece :: pieces).flatten).length := by
      rw [List.flatten_cons, List.length_append, List.length_append]
      omega
    rcases h.growTo (Nat.le_add_right written.length piece.length) with ⟨hlong, hnone⟩ |
      ⟨pool₁, b₁, e₁, hgrow, h₁, hstop⟩
    . right
      refine ⟨Nat.lt_of_lt_of_le hlong hlength, ?_⟩
      unfold ResizeBuffer.writeAll
      rw [hnone]
      rfl
    . by_cases hroom : written.length + piece.length ≤ e₁.capacity
      . obtain ⟨pool₂, hwrite, h₂⟩ := h₁.writeAt hstop hroom
        have hcons : written ++ (piece :: pieces).flatten = written ++ piece ++ pieces.flatten := by
          rw [List.flatten_cons, List.append_assoc]
        have hrest : b.writeAll pool written.length (piece :: pieces)
            = b₁.writeAll pool₂ (written ++ piece).length pieces := by
          conv => lhs; unfold ResizeBuffer.writeAll
          rw [hgrow, List.length_append]
          simp [hwrite]
        rw [hcons, hrest]
        exact ih h₂
      . right
        have hnone := h₁.writeAt_eq_none (Nat.lt_of_not_le hroom)
        have hcapacity : e₁.capacity = 16384 := by
          rcases h₁.early.cases with ⟨-, hcapacity⟩ | ⟨-, hle, -⟩
          . exact hcapacity
          . omega
        refine ⟨by omega, ?_⟩
        unfold ResizeBuffer.writeAll
        rw [hgrow]
        simp [hnone]

theorem Holds.length_le_size {content : List (Option UInt8)} (h : Holds others pool b e content) :
    content.length ≤ e.size := by
  rw [← h.pos_eq, ← h.data_eq]
  unfold ResizeBuffer.data
  cases b.buf with
  | none => exact Nat.zero_le _
  | some addr =>
    rw [List.length_take]
    exact Nat.min_le_left _ _

theorem Written.rewind (h : Written others pool b e written) :
    Carries others pool (b.rewind written.length) written := by
  obtain ⟨content, hholds, htake⟩ := h.holds
  have hsize := h.size
  have hrewind := hholds.rewind written.length
  have hcontent : (if written.length ≥ e.size then content else content.take written.length)
      = written.map some := by
    split
    . next hge =>
      rw [← htake, List.take_of_length_le]
      exact Nat.le_trans hholds.length_le_size hge
    . exact htake
  have hextent : (e.rewind written.length).size = written.length := by
    unfold Extent.rewind
    split
    . omega
    . rfl
  rw [hcontent] at hrewind
  refine ⟨_, hrewind, hextent, ?_⟩
  rw [hextent]
  unfold Extent.rewind
  split
  . exact h.capacity
  . exact h.capacity

theorem carries_new (hsound : pool.Sound others) : Carries others pool {} [] :=
  ⟨{}, ⟨hsound, fun _ => rfl, rfl, rfl⟩, rfl, Nat.le_refl _⟩

theorem written_new (hsound : pool.Sound others) :
    ∃ pool' b' e', ({} : ResizeBuffer).increaseBufferSize pool = some (pool', b')
      ∧ Written others pool' b' e' [] := by
  have hholds : Holds others pool {} {} [] := ⟨hsound, fun _ => rfl, rfl, rfl⟩
  obtain ⟨pool', b', content, hincrease, hholds', -⟩ := hholds.increase (Nat.le_refl _)
  have hextent : ({} : Extent).increaseBufferSize ({} : ResizeBuffer).initialSize = ⟨128, some 8192⟩ := by
    decide
  rw [hextent] at hholds'
  refine ⟨pool', b', _, hincrease, ?_, Nat.zero_le _, Nat.zero_le _, content, hholds', rfl⟩
  simp [Early]

end ResizeBuffer

open BlockMode (encryptFinish encryptProcess length_encryptFinish length_encryptProcess)
open ResizeBuffer (Carries)

variable {others : List Nat} {pool : BufferPool} {b : ResizeBuffer} {bytes : List UInt8}

/-!
### Modifiers
-/

theorem length_updateLengthField (hle : 4 ≤ bytes.length) (newLen : Nat) :
    (updateLengthField bytes 0 newLen).length = bytes.length :=
  Slice.length_write _ _ _ (by rw [length_lengthField, Nat.zero_add]; exact hle)

theorem Sequencer.onSendBuffer_eq (s : Sequencer) (h : Carries others pool b bytes)
    (hle : headerLength ≤ bytes.length) :
    ∃ pool' b', s.onSendBuffer pool b 0 b.size
        = some ((pool', b'), (s.onSend bytes 0 bytes.length).2)
      ∧ Carries others pool' b' (s.onSend bytes 0 bytes.length).1
      ∧ headerLength ≤ (s.onSend bytes 0 bytes.length).1.length := by
  obtain ⟨pool₁, b₁, happend, h₁⟩ := h.append [97]
  have hlength : (bytes ++ [(97 : UInt8)]).length = bytes.length + 1 := by simp
  obtain ⟨pool₂, hwrite, h₂⟩ := h₁.writeAt (by simp) (0 + bytes.length) [s.sendSeq] (by simp)
  have hlength₂ := Slice.length_write (bytes ++ [97]) [s.sendSeq] (0 + bytes.length) (by simp)
  have hle₂ : 4 ≤ (Slice.write (bytes ++ [97]) (0 + bytes.length) [s.sendSeq]).length := by
    rw [hlength₂, hlength]
    exact Nat.le_trans (Nat.le_trans (by decide) hle) (Nat.le_succ _)
  obtain ⟨pool₃, hupdate, h₃⟩ := h₂.updateLengthField hle₂ (bytes.length + sequenceSize)
  refine ⟨pool₃, b₁, ?_, h₃, ?_⟩
  . unfold onSendBuffer
    rw [h.size_eq]
    simp only [happend, hwrite, hupdate, Option.bind_eq_bind, Option.bind_some]
    rfl
  . unfold onSend
    dsimp only
    rw [length_updateLengthField hle₂, hlength₂, hlength]
    exact Nat.le_succ_of_le hle

theorem Checksum.onSendBuffer_eq (lib : Botan) (h : Carries others pool b bytes)
    (hle : headerLength ≤ bytes.length) :
    ∃ pool' b', Checksum.onSendBuffer lib pool b 0 b.size = some (pool', b')
      ∧ Carries others pool' b' (Checksum.onSend lib bytes 0 bytes.length)
      ∧ headerLength ≤ (Checksum.onSend lib bytes 0 bytes.length).length := by
  unfold Checksum.onSendBuffer Checksum.onSend
  rw [h.size_eq]
  split
  . exact ⟨pool, b, rfl, h, hle⟩
  . next hlong =>
    have hsub : sizeSub bytes.length headerLength = bytes.length - headerLength := sizeSub_of_le hle
    have hne : bytes ≠ [] := List.ne_nil_of_length_pos (Nat.lt_of_lt_of_le (by decide) hle)
    have hread := h.readAt hne (0 + headerLength) (sizeSub bytes.length headerLength) (by omega)
    generalize hcrc : lib.crc32
      (Slice.read bytes (0 + headerLength) (sizeSub bytes.length headerLength)) = crc
    have hlength : crc.length = 4 := hcrc ▸ lib.length_crc32 _
    obtain ⟨pool₁, b₁, happend, h₁⟩ := h.append [97, 98, 99, 100]
    have hrange : 0 + bytes.length + crc.length ≤ (bytes ++ [(97 : UInt8), 98, 99, 100]).length := by
      simp [hlength]
    obtain ⟨pool₂, hwrite, h₂⟩ := h₁.writeAt (by simp) _ crc hrange
    have hlength₂ := Slice.length_write (bytes ++ [97, 98, 99, 100]) crc (0 + bytes.length) hrange
    have hle₂ : 4 ≤ (Slice.write (bytes ++ [97, 98, 99, 100]) (0 + bytes.length) crc).length := by
      rw [hlength₂, List.length_append]
      exact Nat.le_add_left _ _
    obtain ⟨pool₃, hupdate, h₃⟩ := h₂.updateLengthField hle₂ (bytes.length + checksumSize)
    refine ⟨pool₃, b₁, ?_, h₃, ?_⟩
    . simp only [hread, hcrc, happend, hwrite, hupdate, Option.bind_eq_bind, Option.bind_some]
      rfl
    . dsimp only
      rw [length_updateLengthField hle₂, hlength₂, List.length_append]
      exact Nat.le_add_right_of_le hle

-- Everything but the last block is encrypted in place, and then the last block.
theorem ResizeBuffer.Carries.encrypt (lib : Botan) (key nonce : List UInt8)
    (h : Carries others pool b bytes) {processLen : Nat} (restLen : Nat)
    (hdiv : processLen / blockSize * blockSize = processLen)
    (hlength : bytes.length = headerLength + processLen + blockSize) (hrest : restLen < blockSize) :
    let process := encryptProcess lib.aes128 key (processLen / blockSize) nonce
      (Slice.read bytes headerLength processLen)
    let bytes' := Slice.write bytes headerLength process.1
    let last := Slice.read bytes' (headerLength + processLen) restLen
    let finish := encryptFinish lib.aes128 key process.2 last
    ∃ pool' pool'', b.readAt pool headerLength processLen
        = some (Slice.read bytes headerLength processLen)
      ∧ b.writeAt pool headerLength process.1 = some pool'
      ∧ b.readAt pool' (headerLength + processLen) restLen = some last
      ∧ b.writeAt pool' (headerLength + processLen) finish = some pool''
      ∧ Carries others pool'' b (Slice.write bytes' (headerLength + processLen) finish)
      ∧ (Slice.write bytes' (headerLength + processLen) finish).length = bytes.length := by
  have hblock : blockSize = 16 := rfl
  have hne : bytes ≠ [] := by
    apply List.ne_nil_of_length_pos
    omega
  dsimp only
  have htext := h.readAt hne headerLength processLen (by omega)
  have htextLength := Slice.length_read bytes headerLength processLen (by omega)
  generalize Slice.read bytes headerLength processLen = text at *
  have hout := length_encryptProcess lib.aes128 key (processLen / blockSize) nonce text (by omega)
  generalize encryptProcess lib.aes128 key (processLen / blockSize) nonce text = process at *
  have hrange : headerLength + process.1.length ≤ bytes.length := by omega
  obtain ⟨pool₁, hwrite₁, h₁⟩ := h.writeAt hne headerLength process.1 hrange
  have hlength₁ := Slice.length_write bytes process.1 headerLength hrange
  have hne₁ : Slice.write bytes headerLength process.1 ≠ [] := by
    apply List.ne_nil_of_length_pos
    omega
  generalize Slice.write bytes headerLength process.1 = bytes₁ at *
  have hlastRange : headerLength + processLen + restLen ≤ bytes₁.length := by omega
  have hlast := h₁.readAt hne₁ (headerLength + processLen) restLen hlastRange
  have hlastLength := Slice.length_read bytes₁ (headerLength + processLen) restLen hlastRange
  generalize Slice.read bytes₁ (headerLength + processLen) restLen = last at *
  have hfinish := length_encryptFinish lib.aes128 key process.2 last (by omega) (by decide)
  generalize encryptFinish lib.aes128 key process.2 last = finish at *
  have hrange₁ : headerLength + processLen + finish.length ≤ bytes₁.length := by omega
  obtain ⟨pool₂, hwrite₂, h₂⟩ := h₁.writeAt hne₁ (headerLength + processLen) finish hrange₁
  have hlength₂ := Slice.length_write bytes₁ finish (headerLength + processLen) hrange₁
  exact ⟨pool₁, pool₂, htext, hwrite₁, hlast, hwrite₂, h₂, hlength₂.trans hlength₁⟩

theorem Cipher.onSendBuffer_eq (lib : Botan) (cfg : Config) (sender : CipherImpl)
    (h : Carries others pool b bytes) (hle : headerLength ≤ bytes.length) :
    ∃ pool' b', Cipher.onSendBuffer lib cfg sender pool b 0 b.size
        = some ((pool', b'), (Cipher.onSend lib cfg sender bytes 0 bytes.length).2)
      ∧ Carries others pool' b' (Cipher.onSend lib cfg sender bytes 0 bytes.length).1
      ∧ headerLength ≤ (Cipher.onSend lib cfg sender bytes 0 bytes.length).1.length := by
  have hblock : blockSize = 16 := rfl
  have hpayload : sizeSub bytes.length headerLength + headerLength = bytes.length := by
    rw [sizeSub_of_le hle]
    exact Nat.sub_add_cancel hle
  have hpad := length_pad_take (sizeSub bytes.length headerLength)
  have hpadSize : padSize (sizeSub bytes.length headerLength)
      = blockSize - sizeSub bytes.length headerLength % blockSize := rfl
  have hsub := sizeSub_add_padSize (sizeSub bytes.length headerLength)
  unfold Cipher.onSendBuffer Cipher.onSend startSend CipherImpl.updateHash Cipher.encrypt
  rw [h.size_eq]
  dsimp only
  split
  . exact ⟨pool, b, rfl, h, hle⟩
  . next hne =>
    rw [hsub, Nat.zero_add]
    have hadd := add_padSize (sizeSub bytes.length headerLength)
    rw [Nat.succ_mul] at hadd
    generalize padSize (sizeSub bytes.length headerLength) = padSize at *
    generalize sizeSub bytes.length headerLength = payloadSize at *
    obtain ⟨pool₁, b₁, happend, h₁⟩ := h.append (pad.take padSize)
    have hlength₁ : (bytes ++ pad.take padSize).length
        = headerLength + payloadSize / blockSize * blockSize + blockSize := by
      rw [List.length_append, hpad]
      omega
    have hne₁ : bytes ++ pad.take padSize ≠ [] := by
      apply List.ne_nil_of_length_pos
      omega
    have hhashed := h₁.readAt hne₁ headerLength (min payloadSize 64) (by omega)
    have hdiv : payloadSize / blockSize * blockSize / blockSize * blockSize
        = payloadSize / blockSize * blockSize := by
      rw [Nat.mul_div_cancel _ (by decide)]
    have hrest : blockSize - padSize < blockSize := by
      have hmod := Nat.mod_lt payloadSize (show 0 < blockSize by decide)
      omega
    obtain ⟨pool₂, pool₃, htext, hwrite₂, hlast, hwrite₃, h₃, hlength₃⟩ :=
      h₁.encrypt lib sender.key sender.nonce (blockSize - padSize) hdiv hlength₁ hrest
    obtain ⟨pool₄, hupdate, h₄⟩ := h₃.updateLengthField (by omega) (bytes.length + padSize)
    refine ⟨pool₄, b₁, ?_, h₄, ?_⟩
    . simp only [happend, hhashed, htext, hwrite₂, hlast, hwrite₃, hupdate, Option.bind_eq_bind,
        Option.bind_some]
      rfl
    . rw [length_updateLengthField (by omega)]
      omega

namespace BitsProtocol

variable {Body : UInt32 → Type} (env : Env Body)

theorem sendModifiedBuffer_eq (loopback : Bool) (p : BitsProtocol) (flags : Flags)
    (h : Carries others pool b bytes) (hle : headerLength ≤ bytes.length) :
    sendModifiedBuffer env loopback p flags pool b
      = some (passOn env loopback
          { p with mods := (Modifiers.sendModified env.lib env.cfg flags p.mods bytes).2 }
          (Modifiers.sendModified env.lib env.cfg flags p.mods bytes).1) := by
  have hsequence : ∃ pool' b', p.mods.sendSequenceBuffer env.cfg flags pool b
        = some ((pool', b'), (Modifiers.sendSequence env.cfg flags p.mods bytes).2)
      ∧ Carries others pool' b' (Modifiers.sendSequence env.cfg flags p.mods bytes).1
      ∧ headerLength ≤ (Modifiers.sendSequence env.cfg flags p.mods bytes).1.length := by
    unfold Modifiers.sendSequenceBuffer Modifiers.sendSequence
    split
    . obtain ⟨pool', b', hsend, h', hle'⟩ := p.mods.sequencer.onSendBuffer_eq h hle
      refine ⟨pool', b', ?_, h', hle'⟩
      rw [hsend]
      rfl
    . exact ⟨pool, b, rfl, h, hle⟩
  unfold sendModifiedBuffer Modifiers.sendModified
  obtain ⟨pool₁, b₁, hsequence, h₁, hle₁⟩ := hsequence
  generalize Modifiers.sendSequence env.cfg flags p.mods bytes = sequenced at *
  have hchecksum : ∃ pool' b', Modifiers.sendChecksumBuffer env.lib env.cfg flags pool₁ b₁
        = some (pool', b')
      ∧ Carries others pool' b' (Modifiers.sendChecksum env.lib env.cfg flags sequenced.1)
      ∧ headerLength ≤ (Modifiers.sendChecksum env.lib env.cfg flags sequenced.1).length := by
    unfold Modifiers.sendChecksumBuffer Modifiers.sendChecksum
    split
    . exact Checksum.onSendBuffer_eq env.lib h₁ hle₁
    . exact ⟨pool₁, b₁, rfl, h₁, hle₁⟩
  obtain ⟨pool₂, b₂, hchecksum, h₂, hle₂⟩ := hchecksum
  dsimp only
  generalize Modifiers.sendChecksum env.lib env.cfg flags sequenced.1 = checked at *
  have hcipher : ∃ pool' b', sequenced.2.sendCipherBuffer env.lib env.cfg flags pool₂ b₂
        = some ((pool', b'), (Modifiers.sendCipher env.lib env.cfg flags sequenced.2 checked).2)
      ∧ Carries others pool' b' (Modifiers.sendCipher env.lib env.cfg flags sequenced.2 checked).1
      ∧ headerLength ≤ (Modifiers.sendCipher env.lib env.cfg flags sequenced.2 checked).1.length := by
    unfold Modifiers.sendCipherBuffer Modifiers.sendCipher
    split
    . obtain ⟨pool', b', hsend, h', hle'⟩ :=
        Cipher.onSendBuffer_eq env.lib env.cfg sequenced.2.cipher.sender h₂ hle₂
      refine ⟨pool', b', ?_, h', hle'⟩
      rw [hsend]
      rfl
    . exact ⟨pool₂, b₂, rfl, h₂, hle₂⟩
  obtain ⟨pool₃, b₃, hcipher, h₃, hle₃⟩ := hcipher
  simp only [hsequence, hchecksum, hcipher, Option.bind_eq_bind, Option.bind_some]
  rw [h₃.readAll hle₃]
  rfl

theorem sendSerialized_eq (loopback : Bool) (p : BitsProtocol) (flags : Flags) {data : List UInt8}
    (hsound : pool.Sound others) (hle : headerLength ≤ data.length) :
    sendSerialized env loopback pool p flags data
      = some (passOn env loopback { p with mods := (sendFinal env flags p.mods data).2 }
          (sendFinal env flags p.mods data).1) := by
  unfold sendSerialized sendFinal
  rw [if_neg (Nat.not_lt_of_le hle)]
  split
  . obtain ⟨pool', b', happend, h⟩ := (ResizeBuffer.carries_new hsound).append data
    rw [List.nil_append] at h
    rw [happend]
    exact sendModifiedBuffer_eq env loopback p flags h hle
  . rfl

theorem length_headed (m : BitsMessage Body) : (headed env m).length = (m.pack env.codec).length := by
  apply length_updateLengthField
  exact Nat.le_trans (by decide) (BitsMessage.headerLength_le_length_pack env.codec m)

theorem sendPacked_eq (pieces : Pieces env.codec) (loopback : Bool) (p : BitsProtocol)
    (m : BitsMessage Body) (hsound : pool.Sound others) :
    ((headed env m).length ≤ 16384 ∧ sendPacked env pieces loopback pool p m
        = some (passOn env loopback { p with mods := (sendFinal env m.flags p.mods (headed env m)).2 }
          (sendFinal env m.flags p.mods (headed env m)).1))
      ∨ (16384 < (headed env m).length ∧ sendPacked env pieces loopback pool p m = none) := by
  obtain ⟨pool₁, b₁, e₁, hincrease, h₁⟩ := ResizeBuffer.written_new hsound
  have hpack : m.pack env.codec = [] ++ (BitsMessage.value4b m.length :: BitsMessage.value4b m.cls
      :: pieces.pieces m.cls m.body).flatten := by
    unfold BitsMessage.pack
    rw [List.nil_append, List.flatten_cons, List.flatten_cons, pieces.flatten_pieces,
      List.append_assoc]
  have hheader := BitsMessage.headerLength_le_length_pack env.codec m
  have hfield : 4 ≤ (m.pack env.codec).length := Nat.le_trans (by decide) hheader
  have hlength := length_headed env m
  have hwriteAll := h₁.writeAll (BitsMessage.value4b m.length :: BitsMessage.value4b m.cls
    :: pieces.pieces m.cls m.body)
  rw [← hpack, List.length_nil] at hwriteAll
  unfold sendPacked
  rw [hincrease, hlength]
  rcases hwriteAll with ⟨hshort, pool₂, b₂, e₂, hwrite, h₂⟩ | ⟨hlong, hnone⟩
  . left
    refine ⟨hshort, ?_⟩
    obtain ⟨pool₃, hupdate, h₃⟩ := h₂.rewind.updateLengthField hfield (m.pack env.codec).length
    have hle : headerLength ≤ (headed env m).length := hlength ▸ hheader
    have hsize := h₃.size_eq
    simp only [hwrite, hupdate, Option.bind_eq_bind, Option.bind_some,
      if_neg (Nat.not_lt_of_le hheader)]
    unfold sendFinal
    split
    . exact sendModifiedBuffer_eq env loopback p m.flags h₃ hle
    . have hread := h₃.readAll hle
      rw [hsize, length_updateLengthField hfield] at hread
      rw [hread]
      rfl
  . right
    refine ⟨hlong, ?_⟩
    simp [hnone]

/--
`send(m)` and `send(m, data, len)` of what `m` is packed into do the same, if and only if it fits into the
longest block that the serializer gets without overrunning one.
-/
theorem sendPacked_eq_sendSerialized_iff (pieces : Pieces env.codec) (loopback : Bool)
    (p : BitsProtocol) (m : BitsMessage Body) {others' : List Nat} {pool' : BufferPool}
    (hsound : pool.Sound others) (hsound' : pool'.Sound others') :
    sendPacked env pieces loopback pool p m
        = sendSerialized env loopback pool' p m.flags (headed env m)
      ↔ (headed env m).length ≤ 16384 := by
  have hheader : headerLength ≤ (headed env m).length := by
    rw [length_headed]
    exact BitsMessage.headerLength_le_length_pack env.codec m
  rw [sendSerialized_eq env loopback p m.flags hsound' hheader]
  rcases sendPacked_eq env pieces loopback p m hsound with ⟨hshort, hsend⟩ | ⟨hlong, hnone⟩
  . rw [hsend]
    exact iff_of_true rfl hshort
  . rw [hnone]
    apply iff_of_false
    . exact fun h => nomatch h
    . exact Nat.not_le_of_lt hlong

theorem sendPacked_eq_sendSerialized_iff_short :
    let env := Env.single 3 { enableSequence := true }
    let m : BitsMessage _ := { cls := 1, flags := { enableSequence := true }, body := ⟨[1, 2, 3], rfl⟩ }
    sendPacked env (Pieces.whole env.codec) false BufferPool.init onBind m
      = sendSerialized env false BufferPool.init onBind m.flags (headed env m) :=
  (sendPacked_eq_sendSerialized_iff (Env.single 3 { enableSequence := true }) (Pieces.whole _) false
    onBind _ BufferPool.sound_init BufferPool.sound_init).mpr (by decide)

-- A member of 16385 bytes is written behind the end of a block of 16384 bytes.
theorem exists_sends_apart :
    ∃ (env : Env fun _ => { xs : List UInt8 // xs.length = 16385 }) (m : BitsMessage _),
      sendPacked env (Pieces.whole env.codec) false BufferPool.init onBind m = none
        ∧ sendSerialized env false BufferPool.init onBind m.flags (headed env m) ≠ none := by
  obtain ⟨m, hlength⟩ : ∃ m : BitsMessage fun _ => { xs : List UInt8 // xs.length = 16385 },
      (headed (Env.single 16385 {}) m).length = 4 + 4 + 16385 := by
    refine ⟨{ cls := 1, flags := {}, body := ⟨List.replicate 16385 0, List.length_replicate⟩ }, ?_⟩
    rw [length_headed]
    unfold BitsMessage.pack
    rw [List.length_append, List.length_append]
    apply congrArg
    exact List.length_replicate
  have hheader : headerLength ≤ (headed (Env.single 16385 {}) m).length := by
    rw [hlength]
    exact Nat.le_add_right _ _
  refine ⟨Env.single 16385 {}, m, ?_, ?_⟩
  . rcases sendPacked_eq (Env.single 16385 {}) (Pieces.whole _) false onBind m BufferPool.sound_init
      with ⟨hshort, -⟩ | ⟨-, hnone⟩
    . omega
    . exact hnone
  . rw [sendSerialized_eq _ false onBind m.flags BufferPool.sound_init hheader]
    exact fun h => nomatch h

end BitsProtocol
end Lax
