import Lax.Foundation.Turn
import Lax.Net.Session.Impl.SendPipeline
import Lax.Net.Session.Lemmas.SegmentBuffer

/-!
This module contains what is true of a session at each statement of `request_send` and
`on_send_completed`, whatever other threads do between two of them.
-/

namespace Lax
namespace SendPipeline

variable {Tid : Type} [DecidableEq Tid]

-- The places between setting and clearing `sending_`.
def Pc.Sends : Pc → Prop
  | .idle => False
  | .sending _ => False
  | .appending _ => False
  | .requestSend => False
  | .checkSend => False
  | .closing => False
  | _ => True

/-!
### Steps
-/

-- `t` goes from one place to the other and leaves this state behind, the place of `t` apart.
inductive Move (length : Nat) (s : State Tid) (t : Tid) : Event Tid → Pc → Pc → State Tid → Prop
  | send {data : List UInt8} : Move length s t (.send t data) .idle (.sending data) s
  | writeDone {i len : Nat} {ok : Bool} (hlt : i < s.writes.length)
    (hdone : ok = true → s.writes[i]? = some len) :
    Move length s t (.writeDone t i ok len) .idle (.sendCompleted ok len)
      { s with writes := s.writes.eraseIdx i }
  | allow {data : List UInt8} : Move length s t (.next t) (.sending data) (.appending data) s
  | refuse {data : List UInt8} : Move length s t (.next t) (.sending data) .idle s
  | append {data : List UInt8} {b : SegmentBuffer}
    (happend : s.sendBuffer.append length data = some b) :
    Move length s t (.next t) (.appending data) .requestSend
      { s with sendBuffer := b, late := s.late ++ [data] }
  | requestSend : Move length s t (.next t) .requestSend .checkSend s
  | socketClosed : Move length s t (.next t) .requestSend .idle s
  | nothingToDo : Move length s t (.next t) .checkSend .idle s
  | claim (hsending : s.sending = false) (hsize : s.sendBuffer.size ≠ 0) :
    Move length s t (.next t) .checkSend .transfer { s with sending := true }
  | transfer :
    Move length s t (.next t) .transfer .verifyBuffer
      {
        s with
        sendBuffer := (s.sendBuffer.transfer length).2
        sendingSegs := (s.sendBuffer.transfer length).1
        sendingBufs := []
        late := []
      }
  | verifyBuffer : Move length s t (.next t) .verifyBuffer .verifySegs s
  | verifySegs : Move length s t (.next t) .verifySegs .resetSize s
  | resetSize : Move length s t (.next t) .resetSize (.pushBuf 0) { s with sendRequestSize := 0 }
  | pushedAll {i : Nat} (hseg : s.sendingSegs[i]? = none) :
    Move length s t (.next t) (.pushBuf i) .verifyBufs s
  | pushBuf {i : Nat} {seg : Seg} (hseg : s.sendingSegs[i]? = some seg) :
    Move length s t (.next t) (.pushBuf i) (.addSize i)
      { s with sendingBufs := s.sendingBufs ++ [seg] }
  | addSize {i : Nat} {seg : Seg} (hseg : s.sendingSegs[i]? = some seg) :
    Move length s t (.next t) (.addSize i) (.pushBuf (i + 1))
      { s with sendRequestSize := s.sendRequestSize + seg.length }
  | verifyBufs : Move length s t (.next t) .verifyBufs .verifySize s
  | verifySize : Move length s t (.next t) .verifySize .startWrite s
  | startWrite :
    Move length s t (.next t) .startWrite .idle
      { s with writes := s.writes ++ [s.sendingBufs.flatten.length] }
  | release {ok : Bool} {len : Nat} :
    Move length s t (.next t) (.sendCompleted ok len) (.released ok)
      { s with sendingSegs := [], sendingBufs := [], sendRequestSize := 0 }
  | sendDone {ok : Bool} {pc : Pc} (hpc : ¬pc.Sends) :
    Move length s t (.next t) (.released ok) pc { s with sending := false }
  | close : Move length s t (.next t) .closing .idle { s with isOpen := false }

def Moved (length : Nat) (s s' : State Tid) (e : Event Tid) (t : Tid) (pc : Pc) : Prop :=
  ∃ pc' base, Move length s t e pc pc' base ∧ s' = base.goto t pc'

variable {length : Nat} {s s' base : State Tid} {t : Tid} {e : Event Tid} {pc pc' : Pc}

theorem moved_advance (hstep : advance length s t pc = some s') :
    Moved length s s' (.next t) t pc := by
  cases pc with
  | idle => contradiction
  | sending data =>
    injection hstep with hstep
    subst hstep
    cases s.isOpen with
    | true => exact ⟨_, _, .allow, rfl⟩
    | false => exact ⟨_, _, .refuse, rfl⟩
  | appending data =>
    obtain ⟨b, happend, hstep⟩ := Option.map_eq_some_iff.mp hstep
    exact ⟨_, _, .append happend, hstep.symm⟩
  | requestSend =>
    injection hstep with hstep
    subst hstep
    cases s.isOpen with
    | true => exact ⟨_, _, .requestSend, rfl⟩
    | false => exact ⟨_, _, .socketClosed, rfl⟩
  | checkSend =>
    unfold advance at hstep
    dsimp only at hstep
    split at hstep
    . injection hstep with hstep
      exact ⟨_, _, .nothingToDo, hstep.symm⟩
    . next hbusy =>
      simp only [Bool.or_eq_true, decide_eq_true_eq, not_or, Bool.not_eq_true] at hbusy
      injection hstep with hstep
      exact ⟨_, _, .claim hbusy.1 hbusy.2, hstep.symm⟩
  | transfer =>
    injection hstep with hstep
    exact ⟨_, _, .transfer, hstep.symm⟩
  | verifyBuffer =>
    injection hstep with hstep
    exact ⟨_, _, .verifyBuffer, hstep.symm⟩
  | verifySegs =>
    injection hstep with hstep
    exact ⟨_, _, .verifySegs, hstep.symm⟩
  | resetSize =>
    injection hstep with hstep
    exact ⟨_, _, .resetSize, hstep.symm⟩
  | pushBuf i =>
    unfold advance at hstep
    dsimp only at hstep
    split at hstep
    . next hseg =>
      injection hstep with hstep
      exact ⟨_, _, .pushedAll hseg, hstep.symm⟩
    . next seg hseg =>
      injection hstep with hstep
      exact ⟨_, _, .pushBuf hseg, hstep.symm⟩
  | addSize i =>
    obtain ⟨seg, hseg, hstep⟩ := Option.map_eq_some_iff.mp hstep
    exact ⟨_, _, .addSize hseg, hstep.symm⟩
  | verifyBufs =>
    injection hstep with hstep
    exact ⟨_, _, .verifyBufs, hstep.symm⟩
  | verifySize =>
    injection hstep with hstep
    exact ⟨_, _, .verifySize, hstep.symm⟩
  | startWrite =>
    injection hstep with hstep
    exact ⟨_, _, .startWrite, hstep.symm⟩
  | sendCompleted ok len =>
    injection hstep with hstep
    exact ⟨_, _, .release, hstep.symm⟩
  | released ok =>
    injection hstep with hstep
    subst hstep
    cases ok with
    | true => exact ⟨_, _, .sendDone id, rfl⟩
    | false => exact ⟨_, _, .sendDone id, rfl⟩
  | closing =>
    injection hstep with hstep
    exact ⟨_, _, .close, hstep.symm⟩

theorem moved_step (hstep : step length s e = some s') :
    (∃ t, Moved length s s' e t (s.threads t)) ∨ s' = { s with isOpen := false } := by
  cases e with
  | send t data =>
    left
    obtain ⟨hidle, hstep⟩ := Option.ite_none_right_eq_some.mp hstep
    injection hstep with hstep
    refine ⟨t, _, _, ?_, hstep.symm⟩
    rw [hidle]
    exact .send
  | writeDone t i ok len =>
    left
    obtain ⟨⟨hidle, hlt, hdone⟩, hstep⟩ := Option.ite_none_right_eq_some.mp hstep
    injection hstep with hstep
    refine ⟨t, _, _, ?_, hstep.symm⟩
    rw [hidle]
    exact .writeDone hlt hdone
  | next t =>
    left
    exact ⟨t, moved_advance hstep⟩
  | shut =>
    right
    injection hstep with hstep
    exact hstep.symm

omit [DecidableEq Tid] in
theorem threads_of_move (h : Move length s t e pc pc' base) : base.threads = s.threads := by
  cases h <;> rfl

/-!
### Places
-/

-- `i` of the segments have been pushed, `j` have been added up.
structure Pushed (s : State Tid) (i j : Nat) : Prop where
  segs : s.sendingSegs.flatten ≠ []
  bufs : s.sendingBufs = s.sendingSegs.take i
  size : s.sendRequestSize = (s.sendingSegs.take j).flatten.length

def Placed (s : State Tid) : Pc → Prop
  | .transfer => s.late.flatten ≠ [] ∧ s.sendingSegs = [] ∧ s.sendingBufs = []
  | .verifyBuffer => s.sendingSegs.flatten ≠ [] ∧ s.sendingBufs = []
  | .verifySegs => s.sendingSegs.flatten ≠ [] ∧ s.sendingBufs = []
  | .resetSize => s.sendingSegs.flatten ≠ [] ∧ s.sendingBufs = []
  | .pushBuf i => Pushed s i i
  | .addSize i => Pushed s (i + 1) i
  | .verifyBufs => Pushed s s.sendingSegs.length s.sendingSegs.length
  | .verifySize => Pushed s s.sendingSegs.length s.sendingSegs.length
  | .startWrite => Pushed s s.sendingSegs.length s.sendingSegs.length
  | .sendCompleted ok len => s.sendingSegs ≠ [] ∧ (ok = true → s.sendRequestSize = len)
  | .released _ => s.sendingSegs = [] ∧ s.sendingBufs = []
  | _ => True

structure Inv (length : Nat) (s : State Tid) : Prop where
  turn : Turn Pc.Sends s.threads s.sending s.writes.length
  buffer : SegmentBuffer.Represents length s.sendBuffer s.late.flatten
  placed : ∀ t, Placed s (s.threads t)
  free : s.sending = false → s.sendingSegs = [] ∧ s.sendingBufs = []
  written : ∀ n ∈ s.writes, s.sendingSegs ≠ [] ∧ n = s.sendRequestSize

omit [DecidableEq Tid] in
theorem placed_of_not_sends (hpc : ¬pc.Sends) : Placed s pc := by
  cases pc with
  | idle | sending _ | appending _ | requestSend | checkSend | closing => trivial
  | _ => exact absurd trivial hpc

omit [DecidableEq Tid] in
theorem ne_nil_of_flatten {segs : List Seg} (h : segs.flatten ≠ []) : segs ≠ [] := by
  rintro rfl
  exact h rfl

omit [DecidableEq Tid] in
theorem Pushed.push {i : Nat} {seg : Seg} (h : Pushed s i i) (hseg : s.sendingSegs[i]? = some seg) :
    Pushed { s with sendingBufs := s.sendingBufs ++ [seg] } (i + 1) i := by
  constructor
  . exact h.segs
  . dsimp only
    rw [h.bufs, List.take_add_one, hseg, Option.toList_some]
  . exact h.size

omit [DecidableEq Tid] in
theorem Pushed.add {i : Nat} {seg : Seg} (h : Pushed s (i + 1) i)
    (hseg : s.sendingSegs[i]? = some seg) :
    Pushed { s with sendRequestSize := s.sendRequestSize + seg.length } (i + 1) (i + 1) := by
  constructor
  . exact h.segs
  . exact h.bufs
  . dsimp only
    rw [h.size, List.take_add_one, hseg, Option.toList_some, List.flatten_append,
      List.length_append, List.flatten_singleton]

omit [DecidableEq Tid] in
theorem Pushed.all {i : Nat} (h : Pushed s i i) (hseg : s.sendingSegs[i]? = none) :
    Pushed s s.sendingSegs.length s.sendingSegs.length := by
  have hle : s.sendingSegs.length ≤ i := List.getElem?_eq_none_iff.mp hseg
  constructor
  . exact h.segs
  . rw [h.bufs, List.take_of_length_le hle, List.take_length]
  . rw [h.size, List.take_of_length_le hle, List.take_length]

omit [DecidableEq Tid] in
-- What `t` does with the flag set is right at its next place.
theorem placed_of_move (hinv : Inv length s) (h : Move length s t e pc pc' base)
    (hplaced : Placed s pc) : Placed base pc' := by
  cases h with
  | send => trivial
  | writeDone hlt hdone =>
    rename_i i len ok
    obtain ⟨hsegs, hsize⟩ := hinv.written _ (List.getElem_mem hlt)
    refine ⟨hsegs, ?_⟩
    intro hok
    have hlen := hdone hok
    rw [List.getElem?_eq_getElem hlt] at hlen
    injection hlen with hlen
    rw [← hlen]
    exact hsize.symm
  | allow => trivial
  | refuse => trivial
  | append => trivial
  | requestSend => trivial
  | socketClosed => trivial
  | nothingToDo => trivial
  | claim hsending hsize =>
    refine ⟨?_, hinv.free hsending⟩
    intro hlate
    apply hsize
    rw [hinv.buffer.size_eq, hlate, List.length_nil]
  | transfer =>
    refine ⟨?_, rfl⟩
    dsimp only
    rw [hinv.buffer.transfer.1]
    exact hplaced.1
  | verifyBuffer => exact hplaced
  | verifySegs => exact hplaced
  | resetSize => exact ⟨hplaced.1, hplaced.2, rfl⟩
  | pushedAll hseg => exact Pushed.all hplaced hseg
  | pushBuf hseg => exact Pushed.push hplaced hseg
  | addSize hseg => exact Pushed.add hplaced hseg
  | verifyBufs => exact hplaced
  | verifySize => exact hplaced
  | startWrite => trivial
  | release => exact ⟨rfl, rfl⟩
  | sendDone hpc => exact placed_of_not_sends hpc
  | close => trivial

/-!
### Other threads
-/

-- What the places of the other threads depend on.
structure Kept (s s' : State Tid) : Prop where
  segs_eq : s'.sendingSegs = s.sendingSegs
  bufs_eq : s'.sendingBufs = s.sendingBufs
  size_eq : s'.sendRequestSize = s.sendRequestSize
  late_ne : s.late.flatten ≠ [] → s'.late.flatten ≠ []
  of_free : s'.sending = false → s.sending = false
  of_written : ∀ n ∈ s'.writes, n ∈ s.writes

omit [DecidableEq Tid] in
-- Without the flag nobody gets to what is being sent.
theorem kept_of_move (h : Move length s t e pc pc' base) (hno : ¬pc.Sends) : Kept s base := by
  cases h with
  | append happend =>
    refine ⟨rfl, rfl, rfl, ?_, id, fun _ => id⟩
    intro hlate
    rw [List.flatten_append]
    exact List.append_ne_nil_of_left_ne_nil hlate _
  | claim hsending hsize => exact ⟨rfl, rfl, rfl, id, fun _ => hsending, fun _ => id⟩
  | writeDone hlt hdone => exact ⟨rfl, rfl, rfl, id, id, fun _ => List.mem_of_mem_eraseIdx⟩
  | send | allow | refuse | requestSend | socketClosed | nothingToDo | close =>
    exact ⟨rfl, rfl, rfl, id, id, fun _ => id⟩
  | _ => exact absurd trivial hno

omit [DecidableEq Tid] in
theorem Kept.pushed {i j : Nat} (hkept : Kept s s') (h : Pushed s i j) : Pushed s' i j := by
  obtain ⟨hsegs, hbufs, hsize⟩ := h
  constructor
  . rw [hkept.segs_eq]
    exact hsegs
  . rw [hkept.segs_eq, hkept.bufs_eq]
    exact hbufs
  . rw [hkept.segs_eq, hkept.size_eq]
    exact hsize

omit [DecidableEq Tid] in
theorem Kept.placed (hkept : Kept s s') (h : Placed s pc) : Placed s' pc := by
  cases pc with
  | idle | sending _ | appending _ | requestSend | checkSend | closing => trivial
  | transfer =>
    refine ⟨hkept.late_ne h.1, ?_⟩
    rw [hkept.segs_eq, hkept.bufs_eq]
    exact h.2
  | verifyBuffer | verifySegs | resetSize | released _ =>
    unfold Placed at h ⊢
    rw [hkept.segs_eq, hkept.bufs_eq]
    exact h
  | sendCompleted ok len =>
    unfold Placed at h ⊢
    rw [hkept.segs_eq, hkept.size_eq]
    exact h
  | pushBuf i => exact hkept.pushed h
  | addSize i => exact hkept.pushed h
  | verifyBufs | verifySize | startWrite =>
    unfold Placed at h ⊢
    rw [hkept.segs_eq]
    exact hkept.pushed h

/-!
### Runs
-/

theorem turn_of_move (hturn : Turn Pc.Sends s.threads s.sending s.writes.length)
    (h : Move length s t e (s.threads t) pc' base) :
    Turn Pc.Sends (Function.update s.threads t pc') base.sending base.writes.length := by
  generalize hpc : s.threads t = pc at h
  cases h with
  | @writeDone i len ok hlt hdone =>
    have hlen : s.writes.length = (s.writes.eraseIdx i).length + 1 := by
      rw [List.length_eraseIdx_of_lt hlt]
      omega
    rw [hlen] at hturn
    apply hturn.complete
    trivial
  | claim hsending hsize =>
    rw [hsending] at hturn
    apply hturn.take
    trivial
  | startWrite =>
    dsimp only
    rw [List.length_append]
    apply hturn.start
    . rw [hpc]
      trivial
    . exact id
  | sendDone hpc' =>
    apply hturn.release
    . rw [hpc]
      trivial
    . exact hpc'
  | _ =>
    apply hturn.move
    rw [hpc]
    exact Iff.rfl

omit [DecidableEq Tid] in
theorem buffer_of_move (hlength : 0 < length)
    (hbuffer : SegmentBuffer.Represents length s.sendBuffer s.late.flatten)
    (h : Move length s t e pc pc' base) :
    SegmentBuffer.Represents length base.sendBuffer base.late.flatten := by
  cases h with
  | append happend =>
    obtain ⟨b', happend', hrep⟩ := hbuffer.append hlength _
    rw [happend] at happend'
    injection happend' with heq
    subst heq
    dsimp only
    rw [List.flatten_append, List.flatten_singleton]
    exact hrep
  | transfer => exact hbuffer.transfer.2
  | _ => exact hbuffer

omit [DecidableEq Tid] in
theorem free_of_move (hinv : Inv length s) (h : Move length s t e (s.threads t) pc' base)
    (hfree : base.sending = false) : base.sendingSegs = [] ∧ base.sendingBufs = [] := by
  by_cases hsends : (s.threads t).Sends
  . have hsending := (hinv.turn.unique hsends).1
    have hplaced := hinv.placed t
    generalize s.threads t = pc at h hplaced
    cases h with
    | sendDone => exact hplaced
    | claim => contradiction
    | _ => exact nomatch hsending.symm.trans hfree
  . have hkept := kept_of_move h hsends
    rw [hkept.segs_eq, hkept.bufs_eq]
    exact hinv.free (hkept.of_free hfree)

omit [DecidableEq Tid] in
theorem written_of_move (hinv : Inv length s) (h : Move length s t e (s.threads t) pc' base) :
    ∀ n ∈ base.writes, base.sendingSegs ≠ [] ∧ n = base.sendRequestSize := by
  intro n hn
  by_cases hsends : (s.threads t).Sends
  . -- Nothing else is being written.
    have hwrites := List.eq_nil_of_length_eq_zero (hinv.turn.unique hsends).2.1
    have hplaced := hinv.placed t
    generalize s.threads t = pc at h hplaced hsends
    have hnil : n ∉ s.writes := by
      rw [hwrites]
      exact List.not_mem_nil
    cases h with
    | startWrite =>
      have hlast := List.mem_singleton.mp ((List.mem_append.mp hn).resolve_left hnil)
      refine ⟨ne_nil_of_flatten hplaced.segs, ?_⟩
      dsimp only
      rw [hlast, hplaced.bufs, hplaced.size]
    | writeDone => exact absurd hsends id
    | _ => exact absurd hn hnil
  . have hkept := kept_of_move h hsends
    rw [hkept.segs_eq, hkept.size_eq]
    exact hinv.written n (hkept.of_written n hn)

theorem kept_goto (s : State Tid) (t : Tid) (pc : Pc) : Kept s (s.goto t pc) :=
  ⟨rfl, rfl, rfl, id, id, fun _ => id⟩

theorem inv_of_move (hlength : 0 < length) (hinv : Inv length s)
    (h : Move length s t e (s.threads t) pc' base) : Inv length (base.goto t pc') := by
  have hthreads : (base.goto t pc').threads = Function.update s.threads t pc' := by
    unfold State.goto
    rw [threads_of_move h]
  have hturn := turn_of_move hinv.turn h
  have hbuffer := buffer_of_move hlength hinv.buffer h
  have hfree := free_of_move hinv h
  have hwritten := written_of_move hinv h
  constructor
  . rw [hthreads]
    exact hturn
  . exact hbuffer
  . intro t'
    rw [hthreads]
    apply (kept_goto base t pc').placed
    by_cases heq : t' = t
    . subst heq
      rw [Function.update_self]
      exact placed_of_move hinv h (hinv.placed t')
    . rw [Function.update_of_ne heq]
      by_cases hsends : (s.threads t).Sends
      . apply placed_of_not_sends
        intro hsends'
        exact heq ((hinv.turn.unique hsends).2.2 t' hsends')
      . exact (kept_of_move h hsends).placed (hinv.placed t')
  . exact hfree
  . exact hwritten

theorem inv_step (hlength : 0 < length) (s : State Tid) (e : Event Tid) (s' : State Tid)
    (hinv : Inv length s) (hstep : (machine length).step s e = some s') : Inv length s' := by
  obtain ⟨t, pc', base, h, rfl⟩ | rfl := moved_step hstep
  . exact inv_of_move hlength hinv h
  . have hkept : Kept s { s with isOpen := false } := ⟨rfl, rfl, rfl, id, id, fun _ => id⟩
    exact ⟨hinv.turn, hinv.buffer, fun t => hkept.placed (hinv.placed t), hinv.free, hinv.written⟩

theorem inv_init : Inv length (machine length : Machine (State Tid) (Event Tid)).init where
  turn := .free rfl rfl fun _ => id
  buffer := SegmentBuffer.represents_empty
  placed := fun _ => trivial
  free := fun _ => ⟨rfl, rfl⟩
  written := fun _ hn => absurd hn List.not_mem_nil

/-!
### Verifying
-/

omit [DecidableEq Tid] in
theorem Inv.verified_of_ne (hinv : Inv length s) (hne : s.threads t ≠ .verifyBuffer) :
    Verified s (s.threads t) := by
  have hplaced := hinv.placed t
  have hturn := hinv.turn
  cases hpc : s.threads t with
  | verifyBuffer => exact absurd hpc hne
  | transfer =>
    rw [hpc] at hplaced
    refine ⟨?_, hplaced.2⟩
    rw [hinv.buffer.size_eq]
    exact List.length_pos_iff.mpr hplaced.1
  | verifySegs =>
    rw [hpc] at hplaced
    exact ne_nil_of_flatten hplaced.1
  | verifyBufs =>
    rw [hpc] at hplaced
    unfold Verified
    rw [hplaced.bufs, List.take_length]
    exact ne_nil_of_flatten hplaced.segs
  | verifySize =>
    rw [hpc] at hplaced
    unfold Verified
    rw [hplaced.size, List.take_length]
    exact List.length_pos_iff.mpr hplaced.segs
  | sendCompleted ok len =>
    rw [hpc] at hplaced
    exact hplaced
  | released ok =>
    apply (hturn.unique (t := t) _).1
    rw [hpc]
    trivial
  | _ => trivial

-- Others get at what is verified outside of the lock, and at nothing else.
def Undisturbed (s : State Tid) (e : Event Tid) : Prop :=
  ∀ t, e = .next t → s.threads t = .verifyBuffer → s.late.flatten = []

instance decidableUndisturbed (s : State Tid) : (e : Event Tid) → Decidable (Undisturbed s e)
  | .next t =>
    decidable_of_iff (s.threads t = .verifyBuffer → s.late.flatten = []) (by simp [Undisturbed])
  | .send _ _ | .writeDone _ _ _ _ | .shut => isTrue (fun _ h => by cases h)

omit [DecidableEq Tid] in
theorem Inv.verifies_iff (hinv : Inv length s) (e : Event Tid) :
    Verifies s e ↔ Undisturbed s e := by
  apply forall₂_congr
  intro t _
  by_cases hpc : s.threads t = .verifyBuffer
  . rw [forall_prop_of_true hpc, hpc]
    unfold Verified
    rw [hinv.buffer.size_eq, List.length_eq_zero_iff]
  . exact iff_of_true (hinv.verified_of_ne hpc) fun h => absurd h hpc

/--
Everything that is verified holds, whatever the threads do, exactly when nobody appends a byte while
another thread is between the transfer and the check that the buffer is empty.
-/
theorem verifies_iff_undisturbed (length : Nat) (h : 0 < length) (es : List (Event Tid)) :
    (machine length).Along Verifies (machine length).init es
      ↔ (machine length).Along Undisturbed (machine length).init es := by
  apply Machine.along_congr (Inv length)
  . exact inv_step h
  . exact fun s e hinv => hinv.verifies_iff e
  . exact inv_init

-- `false` sends while `true` is in the middle of its write, and its byte is in the next one.
def overlapping : List (Event Bool) :=
  .send true [7] :: List.replicate 6 (.next true)
    ++ .send false [8] :: List.replicate 4 (.next false)
    ++ List.replicate 8 (.next true)
    ++ .writeDone true 0 true 1 :: List.replicate 14 (.next true)
    ++ .writeDone false 0 true 1 :: List.replicate 4 (.next false)

theorem verifies_iff_undisturbed_overlapping :
    (∃ s, (machine 4).run (machine 4).init overlapping = some s ∧ s.threads true = .idle
        ∧ s.threads false = .idle ∧ s.sendBuffer.size = 0 ∧ s.writes = [] ∧ s.sending = false)
      ∧ (machine 4).Along Verifies (machine 4).init overlapping := by
  refine ⟨⟨_, rfl, by decide +kernel⟩, ?_⟩
  exact (verifies_iff_undisturbed 4 (by decide) overlapping).mpr (by decide +kernel)
-- `true` has sent one byte, and has let go of the buffer.
def transferred : List (Event Bool) :=
  .send true [7] :: List.replicate 5 (.next true)

set_option maxRecDepth 8000 in
theorem exists_run_transferred :
    ∃ s, (machine 4).run (machine 4).init
        (transferred ++ [.send false [8], .next false, .next false]) = some s
      ∧ s.threads true = .verifyBuffer ∧ s.sendBuffer.size = 1 :=
  ⟨_, rfl, rfl, rfl⟩

-- `false` appends before `true` has verified that the buffer is empty.
theorem exists_not_verifies :
    ∃ es : List (Event Bool), ¬(machine 4).Along Verifies (machine 4).init es := by
  obtain ⟨s, hrun, hplace, hsize⟩ := exists_run_transferred
  refine ⟨(transferred ++ [.send false [8], .next false, .next false]) ++ [.next true], ?_⟩
  intro halong
  have hverified := Machine.of_along hrun halong true rfl
  rw [hplace] at hverified
  exact nomatch hsize.symm.trans hverified

end SendPipeline
end Lax
