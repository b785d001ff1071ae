import Lax.Net.Session.Lemmas.SegmentPool

/-!
This module contains what a buffer is for whoever uses it: bytes go in at one end and come out at the
other. That is so as long as nobody rewinds it at the wrong time.
-/

namespace Lax
namespace PooledBuffer

variable {length : Nat} {u : Use}

def Call.bytes : Call → List UInt8
  | .append p => p
  | _ => []

namespace Use

structure IsByteQueue (length : Nat) (u : Use) : Prop where
  queue : u.returned.map some ++ u.buffer.contents length u.pool = u.appended.map some
  held : ∀ held ∈ u.held, read u.pool held.1 = held.2
  append : ∀ p,
    u.buffer.segs.length ≤ u.buffer.totalSegs length p.length
      ∧ ∃ pool b, u.buffer.append length u.pool p = some (p.length, pool, b)
  transfer :
    let (segs, pool, b) := u.buffer.transfer length u.pool
    (∀ addr ∈ segs.dropLast, (pool.seg addr).length = length) ∧ b.size = 0

def Plain.Queue (length : Nat) (a : Plain) : Prop :=
  ∃ bytes, SegmentBuffer.Represents length a.buffer bytes ∧ a.returned ++ bytes = a.appended

theorem Plain.queue_step (hlength : 0 < length) (a : Plain) (e : Call) (h : a.Queue length)
    (he : e ≠ .rewind) : ∃ a', (Plain.machine length).step a e = some a' ∧ a'.Queue length := by
  obtain ⟨bytes, hrep, hbytes⟩ := h
  cases e with
  | append p =>
    obtain ⟨b', hb', hrep'⟩ := hrep.append hlength p
    refine ⟨_, Option.map_eq_some_iff.mpr ⟨b', hb', rfl⟩, bytes ++ p, hrep', ?_⟩
    rw [← List.append_assoc, hbytes]
  | transfer =>
    obtain ⟨hreturned, hrep'⟩ := hrep.transfer
    refine ⟨_, rfl, [], hrep', ?_⟩
    rw [List.append_nil]
    exact (congrArg (a.returned ++ ·) hreturned).trans hbytes
  | rewind => exact absurd rfl he
  | release i => exact ⟨a, rfl, bytes, hrep, hbytes⟩
  | otherTakes seg => exact ⟨a, rfl, bytes, hrep, hbytes⟩
  | otherWrites i seg => exact ⟨a, rfl, bytes, hrep, hbytes⟩
  | otherGives i => exact ⟨a, rfl, bytes, hrep, hbytes⟩

theorem Owned.isByteQueue (hlength : 0 < length) (h : Owned u) (hqueue : u.plain.Queue length) :
    u.IsByteQueue length := by
  obtain ⟨bytes, hrep, hbytes⟩ := hqueue
  constructor
  . rw [contents_of_represents hrep, ← List.map_append]
    exact congrArg (List.map some) hbytes
  . exact h.held
  . intro p
    constructor
    . have hle : u.buffer.segs.length ≤ u.buffer.pos / length + 1 := by
        simpa [plain, view] using hrep.length_segs_le
      have hdiv : u.buffer.pos / length ≤ (u.buffer.pos + p.length) / length :=
        Nat.div_le_div_right (Nat.le_add_right _ _)
      unfold totalSegs
      omega
    . obtain ⟨v, hv, _⟩ := hrep.append hlength p
      obtain ⟨pool, b, happend, _⟩ := append_refines h.apart hv
      exact ⟨pool, b, happend⟩
  . generalize htransfer : u.buffer.transfer length u.pool = moved
    obtain ⟨segs, pool, b⟩ := moved
    obtain ⟨hrefines, hsegs⟩ := @transfer_refines length _ _ _ h.apart
    rw [htransfer] at hrefines hsegs
    dsimp only at hrefines hsegs ⊢
    constructor
    . intro addr haddr
      apply hrep.transfer_full
      rw [hrefines.frame addr (List.mem_append_right _ (List.dropLast_subset _ haddr))]
      unfold plain
      rw [← hsegs, ← List.map_dropLast]
      exact List.mem_map_of_mem haddr
    . have hsize := hrep.transfer.2.size_eq
      unfold plain at hsize
      rw [← hrefines.view_eq] at hsize
      exact hsize

theorem appended_step {u' : Use} {e : Call} (hstep : (machine length).step u e = some u') :
    u'.appended = u.appended ++ e.bytes := by
  cases e with
  | append p =>
    obtain ⟨_, _, rfl⟩ := Option.map_eq_some_iff.mp hstep
    rfl
  | transfer =>
    have heq := Option.some.inj hstep
    simp [← heq, Call.bytes]
  | rewind =>
    have heq := Option.some.inj hstep
    simp [← heq, Call.bytes]
  | otherTakes seg =>
    have heq := Option.some.inj hstep
    simp [← heq, Call.bytes]
  | release i =>
    dsimp only [machine, step] at hstep
    split at hstep <;> simp [← Option.some.inj hstep, Call.bytes]
  | otherWrites i seg =>
    dsimp only [machine, step] at hstep
    split at hstep <;> simp [← Option.some.inj hstep, Call.bytes]
  | otherGives i =>
    dsimp only [machine, step] at hstep
    split at hstep <;> simp [← Option.some.inj hstep, Call.bytes]

theorem appended_of_run {u' : Use} {es : List Call} (hrun : (machine length).run u es = some u') :
    u'.appended = u.appended ++ es.flatMap Call.bytes := by
  induction es generalizing u with
  | nil =>
    injection hrun with hrun
    simp [hrun]
  | cons e es ih =>
    obtain ⟨mid, hmid, hrun⟩ := Machine.run_cons hrun
    rw [ih hrun, List.flatMap_cons, ← List.append_assoc, appended_step hmid]

/--
Without `rewind`, the buffer never fails and hands out what has been appended, in its order.
-/
theorem isByteQueue_of_run (hlength : 0 < length) {es : List Call}
    (hes : ∀ e ∈ es, e ≠ .rewind) :
    ∃ u, (machine length).run init es = some u ∧ u.appended = es.flatMap Call.bytes
      ∧ u.IsByteQueue length := by
  have hinit : Plain.init.Queue length := ⟨[], SegmentBuffer.represents_empty, rfl⟩
  obtain ⟨a, ha, hqueue⟩ :=
    Machine.exists_run_of_inv (Plain.Queue length) (Plain.queue_step hlength) hes hinit
  obtain ⟨u, hrun, howned, rfl⟩ := Machine.run_of_simulates (fun u a => Owned u ∧ u.plain = a)
    (fun _ _ _ _ => step_simulates) ha ⟨owned_init, rfl⟩
  exact ⟨u, hrun, appended_of_run hrun, howned.isByteQueue hlength hqueue⟩

theorem isByteQueue_of_run_release :
    ∃ u, (machine 2).run init
        [.append [1, 2, 3], .otherTakes [9], .transfer, .append [4], .release 0, .append [5, 6]]
        = some u ∧ u.appended = [1, 2, 3, 4, 5, 6] ∧ u.IsByteQueue 2 := by
  apply isByteQueue_of_run (by decide)
  decide

/-!
### Rewinding
-/

-- A rewound buffer has spare segments, as many as its size was multiples of the length.
def Plain.Spare (length : Nat) (a : Plain) (bytes : List UInt8) : Prop :=
  SegmentBuffer.Represents length a.buffer bytes ∧ a.rewound = 0
    ∨ SegmentBuffer.Filled length a.buffer [] [] (a.rewound / length) ∧ bytes = []

theorem Plain.Spare.append {a : Plain} {bytes : List UInt8} (hlength : 0 < length)
    (h : a.Spare length bytes) {p : List UInt8} (hfits : a.rewound / length ≤ p.length / length) :
    ∃ b', a.buffer.append length p = some b'
      ∧ SegmentBuffer.Represents length b' (bytes ++ p) := by
  obtain ⟨hrep, _⟩ | ⟨hfilled, rfl⟩ := h
  . exact hrep.append hlength p
  . have hpos : a.buffer.pos = 0 := by
      simpa using hfilled.pos
    apply hfilled.append
    simpa [hpos] using hfits

-- There are more segments than `reserve` counts.
theorem Plain.Spare.fits_iff {a : Plain} {bytes : List UInt8} (h : a.Spare length bytes) (len : Nat) :
    a.buffer.segs.length ≤ (a.buffer.pos + len) / length + 1
      ↔ a.rewound / length ≤ len / length := by
  obtain ⟨hrep, hzero⟩ | ⟨hfilled, _⟩ := h
  . have hle := hrep.length_segs_le
    have hdiv : a.buffer.pos / length ≤ (a.buffer.pos + len) / length :=
      Nat.div_le_div_right (Nat.le_add_right _ _)
    simp [hzero]
    omega
  . have hpos : a.buffer.pos = 0 := by
      simpa using hfilled.pos
    rw [hfilled.length_segs, hpos]
    simp
    omega

theorem Plain.Spare.rewind {a : Plain} {bytes : List UInt8} (h : a.Spare length bytes) :
    Plain.Spare length { a with
      buffer := a.buffer.rewind
      rewound := if a.buffer.pos = 0 then a.rewound else a.buffer.pos } [] := by
  obtain ⟨hrep, hzero⟩ | ⟨hfilled, _⟩ := h
  . obtain ⟨heq, rfl⟩ | ⟨full, last, hfilled, rfl⟩ := hrep
    . left
      refine ⟨Or.inl ⟨?_, rfl⟩, ?_⟩
      . simp [heq, SegmentBuffer.rewind, SegmentBuffer.empty]
      . simp [heq, SegmentBuffer.empty, hzero]
    . right
      have hspare : full.length = (if a.buffer.pos = 0 then a.rewound else a.buffer.pos) / length := by
        rw [← hfilled.getWriteSeg_eq]
        unfold SegmentBuffer.getWriteSeg
        split
        . simp_all
        . rfl
      refine ⟨?_, rfl⟩
      dsimp only
      rw [← hspare]
      exact hfilled.rewind
  . right
    have hpos : a.buffer.pos = 0 := by
      simpa using hfilled.pos
    refine ⟨?_, rfl⟩
    dsimp only
    rw [if_pos hpos]
    simpa using hfilled.rewind

theorem Plain.Spare.transfer {a : Plain} {bytes : List UInt8} (h : a.Spare length bytes) :
    ({ a with buffer := (a.buffer.transfer length).2 } : Plain).Spare length [] := by
  obtain ⟨hrep, hzero⟩ | ⟨hfilled, rfl⟩ := h
  . exact Or.inl ⟨hrep.transfer.2, hzero⟩
  . right
    have hpos : a.buffer.pos = 0 := by
      simpa using hfilled.pos
    unfold SegmentBuffer.transfer
    rw [if_pos hpos]
    exact ⟨hfilled, rfl⟩

-- `append` does what it is there for, with no more segments than its bytes need.
def UsableAt (length : Nat) (u : Use) : Call → Prop
  | .append p =>
    u.buffer.segs.length ≤ u.buffer.totalSegs length p.length
      ∧ ∃ pool b, u.buffer.append length u.pool p = some (p.length, pool, b)
        ∧ b.segs.length ≤ u.buffer.segs.length + u.buffer.totalSegs length p.length
        ∧ b.size = u.buffer.size + p.length
        ∧ b.contents length pool = u.buffer.contents length u.pool ++ p.map some
  | _ => True

-- What is appended after a rewind is as long, counted in segments, as what the buffer had in it.
def FitsAt (length : Nat) (u : Use) : Call → Prop
  | .append p => u.rewound / length ≤ p.length / length
  | _ => True

theorem Plain.Spare.size_eq {a : Plain} {bytes : List UInt8} (h : a.Spare length bytes) :
    a.buffer.pos = bytes.length := by
  obtain ⟨hrep, _⟩ | ⟨hfilled, rfl⟩ := h
  . exact hrep.size_eq
  . simpa using hfilled.pos

theorem Plain.Spare.contents_eq {bytes : List UInt8} (h : u.plain.Spare length bytes) :
    u.buffer.contents length u.pool = bytes.map some := by
  obtain ⟨hrep, _⟩ | ⟨hfilled, rfl⟩ := h
  . exact contents_of_represents hrep
  . exact contents_of_filled hfilled

theorem Plain.spare_step (hlength : 0 < length) {a : Plain} {bytes : List UInt8}
    (h : a.Spare length bytes) (e : Call)
    (hfits : ∀ p, e = .append p → a.rewound / length ≤ p.length / length) :
    ∃ a', (Plain.machine length).step a e = some a' ∧ ∃ bytes', a'.Spare length bytes' := by
  cases e with
  | append p =>
    obtain ⟨b', hb', hrep⟩ := h.append hlength (hfits p rfl)
    exact ⟨_, Option.map_eq_some_iff.mpr ⟨b', hb', rfl⟩, _, Or.inl ⟨hrep, rfl⟩⟩
  | transfer => exact ⟨_, rfl, [], h.transfer⟩
  | rewind => exact ⟨_, rfl, [], h.rewind⟩
  | release i => exact ⟨a, rfl, bytes, h⟩
  | otherTakes seg => exact ⟨a, rfl, bytes, h⟩
  | otherWrites i seg => exact ⟨a, rfl, bytes, h⟩
  | otherGives i => exact ⟨a, rfl, bytes, h⟩

theorem usableAt_iff (hlength : 0 < length) (howned : Owned u) {bytes : List UInt8}
    (h : u.plain.Spare length bytes) (e : Call) : UsableAt length u e ↔ FitsAt length u e := by
  cases e with
  | append p =>
    have hfits := h.fits_iff p.length
    have hsegs : u.plain.buffer.segs.length = u.buffer.segs.length := List.length_map _
    rw [hsegs] at hfits
    refine Iff.trans ?_ hfits
    constructor
    . exact fun husable => husable.1
    . intro hle
      refine ⟨hle, ?_⟩
      obtain ⟨v, hv, hrep⟩ := h.append hlength (hfits.mp hle)
      obtain ⟨pool, b, happend, hrefines⟩ := append_refines howned.apart hv
      rw [← hrefines.view_eq] at hrep
      have hsize : u.buffer.pos = bytes.length := h.size_eq
      have hsize' : b.pos = (bytes ++ p).length := hrep.size_eq
      have hlen : b.segs.length ≤ b.pos / length + 1 := by
        simpa [view] using hrep.length_segs_le
      rw [List.length_append, ← hsize] at hsize'
      rw [hsize'] at hlen
      refine ⟨pool, b, happend, Nat.le_add_left_of_le hlen, hsize', ?_⟩
      rw [contents_of_represents hrep, h.contents_eq, List.map_append]
  | _ => exact Iff.rfl

/--
After a `rewind`, the buffer can be used as long as what is appended reaches all of the segments that it
has kept.
-/
theorem usable_iff_fits (hlength : 0 < length) (es : List Call) :
    (machine length).Along (UsableAt length) init es
      ↔ (machine length).Along (FitsAt length) init es := by
  apply Machine.along_congr_of fun u => Owned u ∧ ∃ bytes, u.plain.Spare length bytes
  . rintro u e u' ⟨howned, bytes, h⟩ hfits hstep
    have hfits' : ∀ p, e = .append p → u.plain.rewound / length ≤ p.length / length := by
      rintro p rfl
      exact hfits
    obtain ⟨a', ha', hspare⟩ := Plain.spare_step hlength h e hfits'
    obtain ⟨u'', hu'', howned', rfl⟩ := step_simulates ⟨howned, rfl⟩ ha'
    have heq := Option.some.inj (hstep.symm.trans hu'')
    subst heq
    exact ⟨howned', hspare⟩
  . rintro u e ⟨howned, bytes, h⟩
    exact usableAt_iff hlength howned h e
  . exact ⟨owned_init, [], Or.inl ⟨SegmentBuffer.represents_empty, rfl⟩⟩

theorem usable_iff_fits_rewound :
    (machine 4).Along (UsableAt 4) init [.append [1, 2, 3, 4, 5], .rewind, .append [6, 7, 8, 9]]
      ↔ (machine 4).Along (FitsAt 4) init
        [.append [1, 2, 3, 4, 5], .rewind, .append [6, 7, 8, 9]] :=
  usable_iff_fits (by decide) _

-- Three segments are there when one is asked for.
theorem not_usable_rewound :
    ¬(machine 4).Along (UsableAt 4) init [.append [1, 2, 3, 4, 5, 6, 7, 8, 9], .rewind, .append [0]] := by
  intro h
  obtain ⟨-, h⟩ := h
  specialize h _ rfl
  obtain ⟨-, h⟩ := h
  specialize h _ rfl
  exact absurd h.1.1 (by decide)

end Use
end PooledBuffer
end Lax
