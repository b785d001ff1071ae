import Mathlib.Data.List.Perm.Basic
import Lax.Foundation.Cells
import Lax.Net.Session.Impl.SegmentPool
import Lax.Net.Session.Lemmas.SegmentBuffer

/-!
This module contains the proof that a segment buffer in memory is one with segments of its own: what
it does with a segment is seen by nobody else, and nobody else is seen by it.
-/

namespace Lax

open Cells (Apart)

namespace SegmentPool

-- The addresses behind the queue are owned by somebody.
theorem alloc_spec {pool : SegmentPool} {rest : List Nat}
    (h : Apart (pool.queue ++ rest) pool.allocated) :
    Apart (pool.alloc.1 :: (pool.alloc.2.queue ++ rest)) pool.alloc.2.allocated
      ∧ pool.alloc.2.seg = pool.seg := by
  unfold alloc
  cases hqueue : pool.queue with
  | nil =>
    rw [hqueue] at h
    constructor
    . simp only
      exact h.fresh
    . rfl
  | cons addr queue =>
    rw [hqueue] at h
    exact ⟨h, rfl⟩

theorem constructRaw_spec {pool : SegmentPool} {rest : List Nat}
    (h : Apart (pool.queue ++ rest) pool.allocated) :
    Apart (pool.constructRaw.1 :: (pool.constructRaw.2.queue ++ rest)) pool.constructRaw.2.allocated
      ∧ pool.constructRaw.2.seg = Function.update pool.seg pool.constructRaw.1 [] := by
  obtain ⟨hapart, hseg⟩ := alloc_spec h
  constructor
  . exact hapart
  . unfold constructRaw write
    simp [hseg]

end SegmentPool

namespace PooledBuffer

variable {length : Nat}

def view (pool : SegmentPool) (b : PooledBuffer) : SegmentBuffer :=
  ⟨b.segs.map pool.seg, b.pos⟩

-- The buffer reads as `v`. What belongs to the others is in `rest`, and it is as it was in `pool`.
structure Refines (rest : List Nat) (pool pool' : SegmentPool) (b : PooledBuffer)
    (v : SegmentBuffer) : Prop where
  view_eq : view pool' b = v
  apart : Apart (b.segs ++ (pool'.queue ++ rest)) pool'.allocated
  frame : ∀ addr ∈ rest, pool'.seg addr = pool.seg addr

namespace Refines

variable {rest : List Nat} {pool pool' pool'' : SegmentPool} {b b' : PooledBuffer}
  {v v' : SegmentBuffer}

theorem refl (h : Apart (b.segs ++ (pool.queue ++ rest)) pool.allocated) :
    Refines rest pool pool b (view pool b) :=
  ⟨rfl, h, fun _ _ => rfl⟩

theorem trans (h : Refines rest pool pool' b v) (h' : Refines rest pool' pool'' b' v') :
    Refines rest pool pool'' b' v' := by
  refine ⟨h'.view_eq, h'.apart, ?_⟩
  intro addr haddr
  rw [h'.frame addr haddr, h.frame addr haddr]

end Refines

section

variable {rest : List Nat} {pool : SegmentPool} {b : PooledBuffer}

-- What is written to a segment of the buffer is seen by the buffer alone.
theorem Refines.write (h : Apart (b.segs ++ (pool.queue ++ rest)) pool.allocated) {i addr : Nat}
    (haddr : b.segs[i]? = some addr) (seg : Seg) (pos : Nat) :
    Refines rest pool (pool.write addr seg) { b with pos := pos }
      ⟨(view pool b).segs.set i seg, pos⟩ := by
  constructor
  . unfold view SegmentPool.write
    simp [Cells.map_update pool.seg (List.nodup_append.mp h.nodup).1 haddr]
  . exact h
  . intro addr' haddr'
    apply Function.update_of_ne
    rintro rfl
    apply h.not_mem_of_append (List.mem_append_right _ haddr')
    exact List.mem_of_getElem? haddr

theorem constructSegs_refines {n : Nat}
    (h : Apart (b.segs ++ (pool.queue ++ rest)) pool.allocated) :
    Refines rest pool (constructSegs n pool b).1 (constructSegs n pool b).2
      ⟨(view pool b).segs ++ List.replicate n [], b.pos⟩ := by
  induction n generalizing pool b with
  | zero =>
    simp only [constructSegs, List.replicate_zero, List.append_nil]
    exact Refines.refl h
  | succ n ih =>
    have hperm : (b.segs ++ (pool.queue ++ rest)).Perm (pool.queue ++ (rest ++ b.segs)) := by
      rw [← List.append_assoc pool.queue]
      exact List.perm_append_comm
    obtain ⟨hapart, hseg⟩ := SegmentPool.constructRaw_spec (h.perm hperm)
    have hnot : pool.constructRaw.1 ∉ rest ++ b.segs := by
      intro hmem
      exact (List.nodup_cons.mp hapart.nodup).1 (List.mem_append_right _ hmem)
    have hsegs : (b.segs ++ [pool.constructRaw.1]).map pool.constructRaw.2.seg
        = b.segs.map pool.seg ++ [[]] := by
      rw [hseg, List.map_append, Cells.map_update_of_not_mem, List.map_singleton,
        Function.update_self]
      exact fun hmem => hnot (List.mem_append_right _ hmem)
    have hstep : Refines rest pool pool.constructRaw.2
        { b with segs := b.segs ++ [pool.constructRaw.1] }
        ⟨b.segs.map pool.seg ++ [[]], b.pos⟩ := by
      constructor
      . unfold view
        rw [hsegs]
      . apply hapart.perm
        dsimp only
        rw [List.append_assoc, List.singleton_append]
        refine List.Perm.trans (List.Perm.cons _ ?_) List.perm_middle.symm
        rw [← List.append_assoc]
        exact List.perm_append_comm
      . intro addr haddr
        rw [hseg]
        apply Function.update_of_ne
        rintro rfl
        exact hnot (List.mem_append_left _ haddr)
    have hrest := ih hstep.apart
    rw [hstep.view_eq] at hrest
    unfold constructSegs
    dsimp only [view] at hrest ⊢
    rw [List.append_assoc, List.singleton_append, ← List.replicate_succ] at hrest
    exact hstep.trans hrest

theorem reserve_refines (h : Apart (b.segs ++ (pool.queue ++ rest)) pool.allocated) (len : Nat) :
    Refines rest pool (b.reserve length pool len).1 (b.reserve length pool len).2
      ((view pool b).reserve length len) := by
  have hrefines := constructSegs_refines (n := sizeSub (b.totalSegs length len) b.segs.length) h
  unfold reserve SegmentBuffer.reserve
  simpa [view, totalSegs] using hrefines

/-!
### Appending
-/

-- The loop is done when `written` has got to the end, in both of them.
theorem appendLoop_of_le {fuel : Nat} {p : List UInt8} {written : Nat} {v : SegmentBuffer}
    (h : Apart (b.segs ++ (pool.queue ++ rest)) pool.allocated) (hwritten : written ≤ p.length)
    (hend : p.length ≤ written)
    (hloop : (view pool b).appendLoop length fuel (p.drop written) = some v) :
    appendLoop length fuel pool b p written = some (p.length, pool, b) ∧ Refines rest pool pool b v := by
  rw [List.drop_of_length_le hend] at hloop
  have hv : view pool b = v := by
    cases fuel <;> injection hloop
  have heq : written = p.length := Nat.le_antisymm hwritten hend
  constructor
  . unfold appendLoop
    rw [if_pos hend, heq]
  . rw [← hv]
    exact Refines.refl h

theorem appendLoop_refines {fuel : Nat} {p : List UInt8} {written : Nat} {v : SegmentBuffer}
    (h : Apart (b.segs ++ (pool.queue ++ rest)) pool.allocated) (hwritten : written ≤ p.length)
    (hloop : (view pool b).appendLoop length fuel (p.drop written) = some v) :
    ∃ pool' b', appendLoop length fuel pool b p written = some (p.length, pool', b')
      ∧ Refines rest pool pool' b' v ∧ b'.segs = b.segs := by
  induction fuel generalizing pool b written with
  | zero =>
    by_cases hend : p.length ≤ written
    . obtain ⟨heq, hrefines⟩ := appendLoop_of_le h hwritten hend hloop
      exact ⟨pool, b, heq, hrefines, rfl⟩
    . rw [List.drop_eq_getElem_cons (Nat.lt_of_not_le hend)] at hloop
      cases hloop
  | succ fuel ih =>
    by_cases hend : p.length ≤ written
    . obtain ⟨heq, hrefines⟩ := appendLoop_of_le h hwritten hend hloop
      exact ⟨pool, b, heq, hrefines, rfl⟩
    . obtain ⟨byte, tail, hp⟩ : ∃ byte tail, p.drop written = byte :: tail :=
        ⟨_, _, List.drop_eq_getElem_cons (Nat.lt_of_not_le hend)⟩
      rw [hp] at hloop
      obtain ⟨seg, hseg, hloop⟩ := Option.bind_eq_some_iff.mp hloop
      obtain ⟨seg', hseg', hloop⟩ := Option.bind_eq_some_iff.mp hloop
      rw [← hp] at hloop
      dsimp only [view] at hseg hseg'
      rw [List.getElem?_map, Option.map_eq_some_iff] at hseg hseg'
      obtain ⟨addr, haddr, rfl⟩ := hseg
      obtain ⟨addr', haddr', rfl⟩ := hseg'
      generalize hround : SegmentBuffer.appendSeg length (pool.seg addr') (p.drop written) = round
        at hloop
      obtain ⟨wl, seg⟩ := round
      have hwl : wl ≤ (p.drop written).length := by
        unfold SegmentBuffer.appendSeg at hround
        injection hround with hround
        omega
      rw [List.length_drop] at hwl
      dsimp only at hloop
      rw [List.drop_drop] at hloop
      have hwrite := Refines.write h haddr' seg (b.pos + wl)
      have hle : written + wl ≤ p.length := by omega
      obtain ⟨pool', b', heq, hrefines, hsegs⟩ := ih hwrite.apart hle (by
        rw [hwrite.view_eq]
        exact hloop)
      refine ⟨pool', b', ?_, hwrite.trans hrefines, hsegs⟩
      unfold appendLoop
      rw [if_neg hend]
      apply Option.bind_eq_some_iff.mpr
      refine ⟨addr, haddr, ?_⟩
      apply Option.bind_eq_some_iff.mpr
      refine ⟨addr', haddr', ?_⟩
      rw [hround]
      exact heq

-- `append` takes all of it, and it takes the segments that `reserve` has counted.
theorem append_refines {p : List UInt8} {v : SegmentBuffer}
    (h : Apart (b.segs ++ (pool.queue ++ rest)) pool.allocated)
    (happend : (view pool b).append length p = some v) :
    ∃ pool' b', b.append length pool p = some (p.length, pool', b')
      ∧ Refines rest pool pool' b' v := by
  have hreserve : Refines rest pool (b.reserve length pool p.length).1
      (b.reserve length pool p.length).2 _ := reserve_refines h p.length
  unfold SegmentBuffer.append at happend
  rw [← hreserve.view_eq] at happend
  have hzero : 0 ≤ p.length := Nat.zero_le _
  obtain ⟨pool', b', heq, hrefines, _⟩ := appendLoop_refines hreserve.apart hzero happend
  exact ⟨pool', b', heq, hreserve.trans hrefines⟩

/-!
### Transferring
-/

theorem seg_foldl_write {addrs : List Nat} (addr : Nat) :
    (addrs.foldl (fun pool addr => pool.write addr []) pool).seg addr
      = if addr ∈ addrs then [] else pool.seg addr := by
  induction addrs generalizing pool with
  | nil => rfl
  | cons addr' addrs ih =>
    rw [List.foldl_cons, ih]
    by_cases hmem : addr ∈ addrs
    . simp [hmem]
    . by_cases heq : addr = addr'
      . simp [heq, SegmentPool.write]
      . simp [hmem, heq, SegmentPool.write]

theorem foldl_write {addrs : List Nat} :
    (addrs.foldl (fun pool addr => pool.write addr []) pool).queue = pool.queue
      ∧ (addrs.foldl (fun pool addr => pool.write addr []) pool).allocated = pool.allocated := by
  induction addrs generalizing pool with
  | nil => exact ⟨rfl, rfl⟩
  | cons addr addrs ih =>
    rw [List.foldl_cons, ih.1, ih.2]
    exact ⟨rfl, rfl⟩

theorem rewind_refines (h : Apart (b.segs ++ (pool.queue ++ rest)) pool.allocated) :
    Refines rest pool (rewind pool b).1 (rewind pool b).2 (view pool b).rewind := by
  unfold rewind
  constructor
  . unfold view SegmentBuffer.rewind
    rw [SegmentBuffer.mk.injEq, List.map_map]
    refine ⟨?_, rfl⟩
    apply List.map_congr_left
    intro addr haddr
    rw [seg_foldl_write, if_pos haddr]
    rfl
  . dsimp only
    rw [foldl_write.1, foldl_write.2]
    exact h
  . intro addr haddr
    dsimp only
    rw [seg_foldl_write, if_neg]
    exact h.not_mem_of_append (List.mem_append_right _ haddr)

-- Who has the list now is one of the others.
theorem transfer_refines (h : Apart (b.segs ++ (pool.queue ++ rest)) pool.allocated) :
    Refines (rest ++ (b.transfer length pool).1) pool (b.transfer length pool).2.1
        (b.transfer length pool).2.2 ((view pool b).transfer length).2
      ∧ (b.transfer length pool).1.map pool.seg = ((view pool b).transfer length).1 := by
  unfold transfer SegmentBuffer.transfer
  by_cases hpos : b.pos = 0
  . rw [if_pos hpos, if_pos (show (view pool b).pos = 0 from hpos)]
    dsimp only
    rw [List.append_nil]
    exact ⟨Refines.refl h, rfl⟩
  . rw [if_neg hpos, if_neg (show (view pool b).pos ≠ 0 from hpos)]
    dsimp only
    have hlast : (view pool b).getDataSeg length = b.getDataSeg length := rfl
    rw [hlast]
    generalize b.getDataSeg length + 1 = n
    have hperm : (b.segs ++ (pool.queue ++ rest)).Perm
        (b.segs.drop n ++ (pool.queue ++ (rest ++ b.segs.take n))) := by
      have hsplit : b.segs ++ (pool.queue ++ rest)
          = b.segs.take n ++ (b.segs.drop n ++ (pool.queue ++ rest)) := by
        rw [← List.append_assoc (b.segs.take n), List.take_append_drop]
      have hjoin : b.segs.drop n ++ (pool.queue ++ (rest ++ b.segs.take n))
          = b.segs.drop n ++ (pool.queue ++ rest) ++ b.segs.take n := by
        rw [List.append_assoc, List.append_assoc]
      rw [hsplit, hjoin]
      exact List.perm_append_comm
    have hrefines := rewind_refines (b := { b with segs := b.segs.drop n }) (h.perm hperm)
    constructor
    . simpa [view] using hrefines
    . simp [view]

/-!
### Reading
-/

def contents (length : Nat) (pool : SegmentPool) (b : PooledBuffer) : List (Option UInt8) :=
  (List.range b.size).map (b.byteAt length pool)

theorem contents_of_filled {full : List Seg} {last : Seg} {spare : Nat}
    (h : SegmentBuffer.Filled length (view pool b) full last spare) :
    b.contents length pool = (full.flatten ++ last).map some := by
  have hlength : (full.flatten ++ last).length = b.pos := h.length_bytes
  have hsegs : b.segs ≠ [] := by
    intro hnil
    have hlen := h.length_segs
    simp [view, hnil] at hlen
    omega
  apply List.ext_getElem
  . simp only [contents, size, List.length_map, List.length_range]
    exact hlength.symm
  . intro i hi hi'
    have hpos : i < b.pos := by
      simpa [contents, size] using hi
    have hbyte := h.getElem?_bytes hpos
    dsimp only [view] at hbyte
    rw [List.getElem?_map, Option.bind_map,
      List.getElem?_eq_getElem (show i < (full.flatten ++ last).length from hlength ▸ hpos)] at hbyte
    simp only [contents, List.getElem_map, List.getElem_range]
    unfold byteAt
    rw [if_neg (Nat.not_le_of_lt hpos), if_neg hsegs]
    exact hbyte

theorem contents_of_represents {bytes : List UInt8}
    (h : SegmentBuffer.Represents length (view pool b) bytes) :
    b.contents length pool = bytes.map some := by
  obtain ⟨hempty, rfl⟩ | ⟨full, last, hfilled, rfl⟩ := h
  . have hpos : b.pos = 0 := congrArg SegmentBuffer.pos hempty
    simp [contents, size, hpos]
  . exact contents_of_filled hfilled

end

/-!
### The whole use of a buffer
-/

namespace Use

-- What does not belong to the buffer and is not in the queue of the pool.
def rest (u : Use) : List Nat :=
  u.held.flatMap Prod.fst ++ u.others

structure Owned (u : Use) : Prop where
  apart : Apart (u.buffer.segs ++ (u.pool.queue ++ u.rest)) u.pool.allocated
  held : ∀ held ∈ u.held, read u.pool held.1 = held.2

-- The same use of a buffer that has segments of its own.
structure Plain where
  buffer : SegmentBuffer
  appended : List UInt8
  returned : List UInt8
  rewound : Nat

def plain (u : Use) : Plain :=
  ⟨view u.pool u.buffer, u.appended, u.returned, u.rewound⟩

namespace Plain

def init : Plain :=
  ⟨SegmentBuffer.empty, [], [], 0⟩

def step (length : Nat) (a : Plain) : Call → Option Plain
  | .append p =>
    (a.buffer.append length p).map fun buffer =>
      { a with buffer, appended := a.appended ++ p, rewound := 0 }
  | .transfer =>
    let (segs, buffer) := a.buffer.transfer length
    some { a with buffer, returned := a.returned ++ segs.flatten }
  | .rewind =>
    let rewound := if a.buffer.pos = 0 then a.rewound else a.buffer.pos
    some { a with buffer := a.buffer.rewind, rewound }
  | _ => some a

def machine (length : Nat) : Machine Plain Call where
  init := init
  step := step length

end Plain

theorem owned_init : Owned init :=
  ⟨Apart.nil, fun _ h => absurd h List.not_mem_nil⟩

variable {u : Use}

theorem read_of_frame {pool pool' : SegmentPool} {segs : List Nat}
    (hframe : ∀ addr ∈ segs, pool'.seg addr = pool.seg addr) : read pool' segs = read pool segs := by
  unfold read
  rw [List.map_congr_left hframe]

theorem mem_rest {held : List Nat × List UInt8} (hheld : held ∈ u.held) {addr : Nat}
    (haddr : addr ∈ held.1) : addr ∈ u.rest := by
  apply List.mem_append_left
  exact List.mem_flatMap.mpr ⟨held, hheld, haddr⟩

-- What the buffer does leaves the lists that are in use as they are.
theorem Owned.refines {pool : SegmentPool} {b : PooledBuffer} {v : SegmentBuffer} (h : Owned u)
    (hrefines : Refines u.rest u.pool pool b v) : Owned { u with pool, buffer := b } := by
  constructor
  . exact hrefines.apart
  . intro held hheld
    rw [← h.held held hheld]
    apply read_of_frame
    intro addr haddr
    exact hrefines.frame addr (mem_rest hheld haddr)

-- What the others do with their segments.
theorem Owned.others (h : Owned u) (pool : SegmentPool) (others : List Nat)
    (hapart : Apart (u.buffer.segs ++ (pool.queue ++ (u.held.flatMap Prod.fst ++ others)))
      pool.allocated)
    (hframe : ∀ addr ∈ u.buffer.segs ++ u.held.flatMap Prod.fst, pool.seg addr = u.pool.seg addr) :
    Owned { u with pool, others } ∧ view pool u.buffer = view u.pool u.buffer := by
  constructor
  . constructor
    . exact hapart
    . intro held hheld
      rw [← h.held held hheld]
      apply read_of_frame
      intro addr haddr
      apply hframe
      apply List.mem_append_right
      exact List.mem_flatMap.mpr ⟨held, hheld, haddr⟩
  . unfold view
    rw [List.map_congr_left]
    exact fun addr haddr => hframe addr (List.mem_append_left _ haddr)

-- The lists that are in use get a further one.
theorem Owned.transfer {segs : List Nat} {pool : SegmentPool} {b : PooledBuffer} (h : Owned u)
    (htransfer : u.buffer.transfer length u.pool = (segs, pool, b)) :
    Owned { u with pool, buffer := b, held := u.held ++ [(segs, read pool segs)] }
      ∧ read pool segs = ((view u.pool u.buffer).transfer length).1.flatten
      ∧ view pool b = ((view u.pool u.buffer).transfer length).2 := by
  obtain ⟨hrefines, hsegs⟩ := @transfer_refines length _ _ _ h.apart
  rw [htransfer] at hrefines hsegs
  dsimp only at hrefines hsegs
  refine ⟨⟨?_, ?_⟩, ?_, hrefines.view_eq⟩
  . apply hrefines.apart.perm
    unfold rest
    rw [List.perm_iff_count]
    intro addr
    simp only [List.count_append, List.flatMap_append, List.flatMap_singleton]
    omega
  . intro held hheld
    rw [List.mem_append, List.mem_singleton] at hheld
    obtain hheld | rfl := hheld
    . rw [← h.held held hheld]
      apply read_of_frame
      intro addr haddr
      exact hrefines.frame addr (List.mem_append_left _ (mem_rest hheld haddr))
    . rfl
  . rw [← hsegs, ← read]
    apply read_of_frame
    exact fun addr haddr => hrefines.frame addr (List.mem_append_right _ haddr)

theorem perm_eraseIdx {α : Type} {l : List α} {i : Nat} {x : α} (h : l[i]? = some x) :
    l.Perm (x :: l.eraseIdx i) := by
  obtain ⟨hi, rfl⟩ := List.getElem?_eq_some_iff.mp h
  exact (List.getElem_cons_eraseIdx_perm hi).symm

theorem release_eq (pool : SegmentPool) (segs : List Nat) :
    release pool segs = { pool with queue := pool.queue ++ segs } := by
  induction segs generalizing pool with
  | nil => simp [release]
  | cons addr segs ih =>
    have hcons : release pool (addr :: segs) = release (pool.destroy addr) segs := rfl
    rw [hcons, ih]
    simp [SegmentPool.destroy]

theorem Owned.release {i : Nat} {segs : List Nat} {bytes : List UInt8} (h : Owned u)
    (hi : u.held[i]? = some (segs, bytes)) :
    Owned { u with pool := PooledBuffer.release u.pool segs, held := u.held.eraseIdx i } := by
  have hperm := (perm_eraseIdx hi).flatMap_right Prod.fst
  constructor
  . rw [release_eq]
    apply h.apart.perm
    unfold rest
    dsimp only
    rw [List.perm_iff_count]
    intro addr
    have hcount := List.perm_iff_count.mp hperm addr
    simp only [List.flatMap_cons, List.count_append] at hcount ⊢
    omega
  . intro held hheld
    rw [release_eq]
    exact h.held held (List.mem_of_mem_eraseIdx hheld)

theorem Owned.otherTakes {addr : Nat} {pool : SegmentPool} (h : Owned u)
    (hraw : u.pool.constructRaw = (addr, pool)) (seg : Seg) :
    Owned { u with pool := pool.write addr seg, others := u.others ++ [addr] }
      ∧ view (pool.write addr seg) u.buffer = view u.pool u.buffer := by
  have hperm : (u.buffer.segs ++ (u.pool.queue ++ u.rest)).Perm
      (u.pool.queue ++ (u.rest ++ u.buffer.segs)) := by
    rw [← List.append_assoc u.pool.queue]
    exact List.perm_append_comm
  obtain ⟨hapart, hseg⟩ := SegmentPool.constructRaw_spec (h.apart.perm hperm)
  rw [hraw] at hapart hseg
  apply h.others
  . apply hapart.perm
    unfold rest
    rw [List.perm_iff_count]
    intro addr'
    simp only [List.count_append, List.count_cons, SegmentPool.write, List.count_nil]
    omega
  . intro addr' haddr'
    have hne : addr' ≠ addr := by
      rintro rfl
      apply (List.nodup_cons.mp hapart.nodup).1
      simp only [rest, List.mem_append] at haddr' ⊢
      tauto
    unfold SegmentPool.write
    dsimp only at hseg ⊢
    rw [hseg, Function.update_of_ne hne, Function.update_of_ne hne]

theorem Owned.otherWrites {i addr : Nat} (h : Owned u) (hi : u.others[i]? = some addr) (seg : Seg) :
    Owned { u with pool := u.pool.write addr seg }
      ∧ view (u.pool.write addr seg) u.buffer = view u.pool u.buffer := by
  refine h.others (u.pool.write addr seg) u.others h.apart ?_
  intro addr' haddr'
  apply Function.update_of_ne
  rintro rfl
  have hperm : (u.buffer.segs ++ (u.pool.queue ++ u.rest)).Perm
      (u.pool.queue ++ (u.buffer.segs ++ u.held.flatMap Prod.fst ++ u.others)) := by
    unfold rest
    rw [List.perm_iff_count]
    intro addr
    simp only [List.count_append]
    omega
  have hapart := (h.apart.perm hperm).sublist (List.sublist_append_right _ _)
  exact hapart.not_mem_of_append (List.mem_of_getElem? hi) haddr'

theorem Owned.otherGives {i addr : Nat} (h : Owned u) (hi : u.others[i]? = some addr) :
    Owned { u with pool := u.pool.destroy addr, others := u.others.eraseIdx i } := by
  refine (h.others (u.pool.destroy addr) (u.others.eraseIdx i) ?_ fun _ _ => rfl).1
  apply h.apart.perm
  unfold rest
  rw [List.perm_iff_count]
  intro addr'
  have hcount := List.perm_iff_count.mp (perm_eraseIdx hi) addr'
  simp only [List.count_append, List.count_cons, SegmentPool.destroy, List.count_nil] at hcount ⊢
  omega

-- A buffer that has its segments from the pool can do what one with segments of its own can.
theorem step_simulates {a a' : Plain} {e : Call} (h : Owned u ∧ u.plain = a)
    (hstep : (Plain.machine length).step a e = some a') :
    ∃ u', (machine length).step u e = some u' ∧ Owned u' ∧ u'.plain = a' := by
  obtain ⟨howned, rfl⟩ := h
  cases e with
  | append p =>
    obtain ⟨buffer, hbuffer, rfl⟩ := Option.map_eq_some_iff.mp hstep
    obtain ⟨pool', b', happend, hrefines⟩ := append_refines howned.apart hbuffer
    have howned' := howned.refines hrefines
    refine ⟨_, Option.map_eq_some_iff.mpr ⟨_, happend, rfl⟩, ⟨howned'.apart, howned'.held⟩, ?_⟩
    simp [plain, hrefines.view_eq]
  | transfer =>
    have heq : { u.plain with
        buffer := (u.plain.buffer.transfer length).2
        returned := u.returned ++ (u.plain.buffer.transfer length).1.flatten } = a' :=
      Option.some.inj hstep
    generalize htransfer : u.buffer.transfer length u.pool = moved
    obtain ⟨segs, pool, b⟩ := moved
    obtain ⟨howned', hread, hview⟩ := howned.transfer htransfer
    let u' : Use :=
      { u with
        pool, buffer := b, held := u.held ++ [(segs, read pool segs)]
        returned := u.returned ++ read pool segs }
    refine ⟨u', by simp only [machine, step, htransfer, u'], ⟨howned'.apart, howned'.held⟩, ?_⟩
    rw [← heq]
    unfold plain
    rw [← hread, ← hview]
  | release i =>
    injection hstep with hstep
    subst hstep
    cases hi : u.held[i]? with
    | none => exact ⟨u, by simp [machine, step, hi], howned, rfl⟩
    | some held =>
      obtain ⟨segs, bytes⟩ := held
      refine ⟨_, by simp only [machine, step, hi], howned.release hi, ?_⟩
      simp [plain, view, release_eq]
  | rewind =>
    have heq := Option.some.inj hstep
    have hrefines := rewind_refines howned.apart
    have howned' := howned.refines hrefines
    refine ⟨_, rfl, ⟨howned'.apart, howned'.held⟩, ?_⟩
    rw [← heq]
    unfold plain
    rw [← hrefines.view_eq]
    rfl
  | otherTakes seg =>
    injection hstep with hstep
    subst hstep
    generalize hraw : u.pool.constructRaw = raw
    obtain ⟨addr, pool⟩ := raw
    obtain ⟨howned', hview⟩ := howned.otherTakes hraw seg
    refine ⟨_, by simp only [machine, step, hraw], howned', ?_⟩
    simp [plain, hview]
  | otherWrites i seg =>
    injection hstep with hstep
    subst hstep
    cases hi : u.others[i]? with
    | none => exact ⟨u, by simp [machine, step, hi], howned, rfl⟩
    | some addr =>
      obtain ⟨howned', hview⟩ := howned.otherWrites hi seg
      refine ⟨_, by simp only [machine, step, hi], howned', ?_⟩
      simp [plain, hview]
  | otherGives i =>
    injection hstep with hstep
    subst hstep
    cases hi : u.others[i]? with
    | none => exact ⟨u, by simp [machine, step, hi], howned, rfl⟩
    | some addr => exact ⟨_, by simp only [machine, step, hi], howned.otherGives hi, rfl⟩

end Use
end PooledBuffer
end Lax
