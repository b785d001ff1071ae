import Lax.Net.Session.Lemmas.Outstanding
import Lax.Net.Session.Lemmas.SegmentBuffer

/-!
This module contains the proof that a session sends what has been appended: all of it, in order and
without anybody having to send once more.
-/

namespace Lax

def SegmentBuffer.bytes (b : SegmentBuffer) : List UInt8 :=
  b.segs.flatten

theorem SegmentBuffer.Represents.bytes_eq {length : Nat} {b : SegmentBuffer} {bytes : List UInt8}
    (h : Represents length b bytes) : b.bytes = bytes := by
  unfold SegmentBuffer.bytes
  obtain ⟨rfl, rfl⟩ | ⟨full, last, hfilled, rfl⟩ := h
  . rfl
  . rw [hfilled.segs, List.flatten_append]
    simp

namespace Session

open SegmentBuffer

variable {Tid : Type}

-- What has been transferred out of `send_buffer_` but is not on the wire yet.
def State.inFlight (s : State Tid) : List UInt8 :=
  if s.handed then s.writes.flatten else s.sendingSegs.flatten

def Pc.InSend : Pc → Prop
  | .sending _ | .appending _ | .requestSend _ | .checkSend _ | .transfer _ | .startWrite _
  | .sendCompleted _ | .released _ => True
  | _ => False

def Pc.Requests : Pc → Prop
  | .requestSend _ | .checkSend _ => True
  | _ => False

structure Lossless (length : Nat) (s : State Tid) : Prop where
  writes_le : s.writes.length ≤ 1
  stream : s.wire ++ s.inFlight ++ s.sendBuffer.bytes = s.appended.flatten
  drained : s.writes = [] → (∀ t, ¬(s.threads t).InSend) → s.sendBuffer.size = 0
  append : ∀ data, (s.sendBuffer.append length data).isSome = true

-- The socket stays open and writes succeed.
def Undisturbed (s : State Tid) (e : Event Tid) : Prop :=
  s.isOpen = true ∧ ∀ t i, e ≠ .writeDone t i false

instance decidableUndisturbed (s : State Tid) : (e : Event Tid) → Decidable (Undisturbed s e)
  | .writeDone _ _ false => isFalse fun h => h.2 _ _ rfl
  | .writeDone _ _ true | .send _ _ | .close _ | .readDone _ _ | .transmit _ _ | .next _ _ =>
    decidable_of_iff (s.isOpen = true) (by simp [Undisturbed])

-- Where `sending_segs_` are.
structure Handed (s : State Tid) : Prop where
  start : ∀ t handler, s.threads t = .startWrite handler → s.handed = false
  writes : s.writes ≠ [] → s.handed = true
  completed : ∀ t ok, s.threads t = .sendCompleted ok → s.handed = true
  waiting : s.handed = false → s.sendingSegs = [] ∨ ∃ t handler, s.threads t = .startWrite handler

structure Streams (length : Nat) (s : State Tid) : Prop where
  handed : Handed s
  buffer : Represents length s.sendBuffer s.sendBuffer.bytes
  stream : s.wire ++ s.inFlight ++ s.sendBuffer.bytes = s.appended.flatten
  succeeded : ∀ t, s.threads t ≠ .sendCompleted false ∧ s.threads t ≠ .released false
  requested : s.sendBuffer.size ≠ 0 → s.sending = true ∨ ∃ t, (s.threads t).Requests

variable [DecidableEq Tid] {length : Nat} {s s' : State Tid} {t : Tid} {e : Event Tid} {pc' : Pc}
  {base : State Tid}

theorem streams_init : Streams length (@machine Tid _ length).init where
  handed := {
    start := fun _ _ h => nomatch h
    writes := fun h => absurd rfl h
    completed := fun _ _ h => nomatch h
    waiting := fun _ => Or.inl rfl
  }
  buffer := represents_empty
  stream := rfl
  succeeded := fun _ => ⟨(nomatch ·), (nomatch ·)⟩
  requested := fun h => absurd rfl h

theorem requested_step (h : Streams length s) (hsends : Turn Pc.Sends s.threads s.sending s.writes.length)
    (hopen : s.isOpen = true) (hmove : Move length s t e (s.threads t) pc' base) :
    base.sendBuffer.size ≠ 0 →
      base.sending = true ∨ ∃ t', (Function.update s.threads t pc' t').Requests := by
  have hself : pc'.Requests → ∃ t', (Function.update s.threads t pc' t').Requests :=
    fun hpc => ⟨t, by rw [Function.update_self]; exact hpc⟩
  have hkeep : (¬(s.threads t).Requests) → s.sendBuffer.size ≠ 0 →
      s.sending = true ∨ ∃ t', (Function.update s.threads t pc' t').Requests :=
    fun hno hsize => (h.requested hsize).imp_right 
      (Threads.exists_update Pc.Requests fun hyes => absurd hyes hno)
  have hsucceeded := h.succeeded t
  generalize hpc : s.threads t = pc at hmove
  rw [hpc] at hkeep hsucceeded
  intro hsize
  cases hmove with
  | append | requestSend | sendDone => exact Or.inr (hself trivial)
  | sendClosed hclosed => cases hopen.symm.trans hclosed
  | alreadySending hsending => exact Or.inl hsending
  | noData _ hzero => exact absurd hzero hsize
  | claimSend => exact Or.inl rfl
  | transfer => exact Or.inl (hsends.unique (show (s.threads t).Sends by rw [hpc]; trivial)).1
  | sendFailed => exact absurd rfl hsucceeded.2
  | _ => exact hkeep id hsize

theorem Handed.goto (h : Handed s) (hold : ∀ handler, s.threads t ≠ .startWrite handler)
    (hstart : ∀ handler, pc' ≠ .startWrite handler) (hcompleted : ∀ ok, pc' ≠ .sendCompleted ok) :
    Handed (s.goto t pc') := by
  constructor
  . intro t' handler heq
    obtain ⟨-, heq⟩ | ⟨-, heq⟩ := threads_goto heq
    . exact absurd heq (hstart handler)
    . exact h.start t' handler heq
  . exact h.writes
  . intro t' ok heq
    obtain ⟨-, heq⟩ | ⟨-, heq⟩ := threads_goto heq
    . exact absurd heq (hcompleted ok)
    . exact h.completed t' ok heq
  . intro hhanded
    refine (h.waiting hhanded).imp_right ?_
    rintro ⟨t', handler, heq⟩
    have hne : t' ≠ t := by
      rintro rfl
      exact hold handler heq
    exact ⟨t', handler, (goto_of_ne hne ..).trans heq⟩

theorem handed_step (h : Handed s) (hsends : Turn Pc.Sends s.threads s.sending s.writes.length)
    (hmove : Move length s t e (s.threads t) pc' base) : Handed (base.goto t pc') := by
  have hgoto := @Handed.goto Tid _ s t pc' h
  generalize hpc : s.threads t = pc at hmove
  rw [hpc] at hgoto
  have hunique : pc.Sends → s.writes = [] ∧ ∀ t', (s.threads t').Sends → t' = t := by
    intro hsend
    obtain ⟨-, hlen, hunique⟩ := hsends.unique (hpc ▸ hsend)
    exact ⟨List.length_eq_zero_iff.mp hlen, hunique⟩
  cases hmove with
  | @transfer ok handler =>
    obtain ⟨hwrites, hunique⟩ := hunique trivial
    constructor
    . exact fun _ _ _ => rfl
    . exact fun hne => absurd hwrites hne
    . intro t' ok heq
      obtain ⟨-, heq⟩ | ⟨hne, heq⟩ := threads_goto heq
      . cases heq
      . exact absurd (hunique t' (by rw [heq]; trivial)) hne
    . exact fun _ => Or.inr ⟨t, handler, goto_self ..⟩
  | startWrite =>
    obtain ⟨-, hunique⟩ := hunique trivial
    constructor
    . intro t' handler heq
      obtain ⟨-, heq⟩ | ⟨hne, heq⟩ := threads_goto heq
      . cases heq
      . exact absurd (hunique t' (by rw [heq]; trivial)) hne
    . exact fun _ => rfl
    . exact fun _ _ _ => rfl
    . exact fun hhanded => nomatch hhanded
  | writeDone hlt hdone =>
    have hhanded : s.handed = true :=
      h.writes (List.ne_nil_of_length_pos (Nat.zero_lt_of_lt hlt))
    constructor
    . intro t' handler heq
      obtain ⟨-, heq⟩ | ⟨-, heq⟩ := threads_goto heq
      . cases heq
      . exact h.start t' handler heq
    . exact fun _ => hhanded
    . exact fun _ _ _ => hhanded
    . exact fun hno => absurd (hhanded.symm.trans hno) (fun h => nomatch h)
  | release =>
    have h' := hgoto (fun _ h => nomatch h) (fun _ h => nomatch h) (fun _ h => nomatch h)
    exact ⟨h'.start, h'.writes, h'.completed, fun _ => Or.inl rfl⟩
  | _ =>
    have h' := hgoto (fun _ h => nomatch h) (fun _ h => nomatch h) (fun _ h => nomatch h)
    exact ⟨h'.start, h'.writes, h'.completed, h'.waiting⟩

theorem eq_singleton_of_getElem {α : Type} {l : List α} {i : Nat} {x : α} (h : l.length ≤ 1)
    (hi : l[i]? = some x) : l = [x] ∧ i = 0 := by
  have hlt : i < l.length := (List.getElem?_eq_some_iff.mp hi).1
  have hzero : i = 0 := by omega
  subst hzero
  match l with
  | [y] =>
    injection hi with hi
    exact ⟨by rw [hi], rfl⟩
  | [] => cases hi
  | _ :: _ :: _ =>
    simp only [List.length_cons] at h
    omega

omit [DecidableEq Tid] in
theorem Handed.inFlight_eq_nil (h : Handed s) (hwrites : s.writes = [])
    (hno : ∀ t handler, s.threads t ≠ .startWrite handler) : s.inFlight = [] := by
  unfold State.inFlight
  cases hhanded : s.handed with
  | true => rw [if_pos rfl, hwrites, List.flatten_nil]
  | false =>
    obtain hsegs | ⟨t, handler, ht⟩ := h.waiting hhanded
    . rw [if_neg Bool.false_ne_true, hsegs, List.flatten_nil]
    . exact absurd ht (hno t handler)

omit [DecidableEq Tid] in
theorem stream_step (hlength : 0 < length) (h : Streams length s) (houtstanding : Outstanding s)
    (hundisturbed : Undisturbed s e) (hmove : Move length s t e (s.threads t) pc' base) :
    Represents length base.sendBuffer base.sendBuffer.bytes
      ∧ base.wire ++ base.inFlight ++ base.sendBuffer.bytes = base.appended.flatten := by
  have hbuffer := h.buffer
  have hstream := h.stream
  have hunique := @Turn.unique _ _ _ _ _ _ t houtstanding.send
  have hstart := h.handed.start t
  have hcompleted := h.handed.completed t
  generalize hpc : s.threads t = pc at hmove hunique
  rw [hpc] at hstart hcompleted
  cases hmove with
  | append happend =>
    obtain ⟨b', hb', hrep⟩ := hbuffer.append hlength _
    injection happend.symm.trans hb' with heq
    subst heq
    dsimp only [State.inFlight] at hstream ⊢
    rw [hrep.bytes_eq]
    refine ⟨hrep, ?_⟩
    rw [← List.append_assoc, hstream, List.flatten_append, List.flatten_cons, List.flatten_nil,
      List.append_nil]
  | transfer =>
    obtain ⟨-, hlen, hunique⟩ := hunique trivial
    have hwrites := List.length_eq_zero_iff.mp hlen
    obtain ⟨hsegs, hrep⟩ := hbuffer.transfer
    have hno : ∀ t' handler, s.threads t' ≠ .startWrite handler := by
      intro t' handler ht'
      have heq := hunique t' (by rw [ht']; trivial)
      subst heq
      cases hpc.symm.trans ht'
    rw [h.handed.inFlight_eq_nil hwrites hno, List.append_nil] at hstream
    dsimp only [State.inFlight]
    rw [hrep.bytes_eq, if_neg Bool.false_ne_true, hsegs, List.append_nil]
    exact ⟨hrep, hstream⟩
  | startWrite =>
    obtain ⟨-, hlen, -⟩ := hunique trivial
    have hwrites := List.length_eq_zero_iff.mp hlen
    have hhanded := hstart _ rfl
    dsimp only [State.inFlight] at hstream ⊢
    rw [hhanded, if_neg Bool.false_ne_true] at hstream
    rw [if_pos rfl, hwrites, List.nil_append, List.flatten_cons, List.flatten_nil, List.append_nil]
    exact ⟨hbuffer, hstream⟩
  | @writeDone i ok hlt hdone =>
    have hok : ok = true := by
      cases ok with
      | true => rfl
      | false => exact absurd rfl (hundisturbed.2 t i)
    obtain ⟨hwrites, hi⟩ := eq_singleton_of_getElem houtstanding.send.ops_le_one (hdone hok)
    have hhanded := h.handed.writes (by rw [hwrites]; exact List.cons_ne_nil _ _)
    dsimp only [State.inFlight] at hstream ⊢
    rw [hhanded, if_pos rfl, hwrites] at hstream
    rw [hhanded, if_pos rfl, hwrites, hi]
    exact ⟨hbuffer, hstream⟩
  | release =>
    have hhanded := hcompleted _ rfl
    dsimp only [State.inFlight] at hstream ⊢
    rw [hhanded, if_pos rfl] at hstream ⊢
    exact ⟨hbuffer, hstream⟩
  | _ => exact ⟨hbuffer, hstream⟩

omit [DecidableEq Tid] in
theorem streams_transmit {i n : Nat} {bytes : List UInt8} (h : Streams length s)
    (houtstanding : Outstanding s) (hbytes : s.writes[i]? = some bytes) :
    Streams length
      { s with wire := s.wire ++ bytes.take n, writes := s.writes.set i (bytes.drop n) } := by
  obtain ⟨hwrites, hi⟩ := eq_singleton_of_getElem houtstanding.send.ops_le_one hbytes
  have hhanded := h.handed.writes (by rw [hwrites]; exact List.cons_ne_nil _ _)
  have hstream := h.stream
  unfold State.inFlight at hstream
  rw [hhanded, if_pos rfl, hwrites] at hstream
  refine ⟨⟨h.handed.start, fun _ => hhanded, h.handed.completed, h.handed.waiting⟩, h.buffer, ?_,
    h.succeeded, h.requested⟩
  dsimp only [State.inFlight]
  rw [hhanded, if_pos rfl, hwrites, hi, ← hstream]
  simp

omit [DecidableEq Tid] in
theorem succeeded_of_move {pc : Pc} (hpc : pc ≠ .sendCompleted false)
    (hundisturbed : Undisturbed s e) (hmove : Move length s t e pc pc' base) :
    pc' ≠ .sendCompleted false ∧ pc' ≠ .released false := by
  cases hmove with
  | @writeDone i ok hlt hdone =>
    refine ⟨?_, (nomatch ·)⟩
    rintro ⟨⟩
    exact hundisturbed.2 t i rfl
  | @release ok ok' =>
    refine ⟨(nomatch ·), ?_⟩
    rintro ⟨⟩
    exact hpc rfl
  | _ => exact ⟨(nomatch ·), (nomatch ·)⟩

theorem streams_step (hlength : 0 < length) (h : Streams length s) (houtstanding : Outstanding s)
    (hundisturbed : Undisturbed s e) (hstep : step length s e = some s') : Streams length s' := by
  obtain ⟨t, pc', base, hmove, rfl⟩ | ⟨i, n, bytes, -, hbytes, rfl⟩ := moved_of_step hstep
  . obtain ⟨hbuffer, hstream⟩ := stream_step hlength h houtstanding hundisturbed hmove
    have hrequested := requested_step h houtstanding.send hundisturbed.1 hmove
    rw [← threads_of_move hmove] at hrequested
    refine ⟨handed_step h.handed houtstanding.send hmove, hbuffer, hstream, ?_, hrequested⟩
    have hsucceeded := succeeded_of_move (h.succeeded t).1 hundisturbed hmove
    apply (Function.forall_update_iff base.threads
      fun _ pc => pc ≠ .sendCompleted false ∧ pc ≠ .released false).mpr
    rw [threads_of_move hmove]
    exact ⟨hsucceeded, fun t' _ => h.succeeded t'⟩
  . exact streams_transmit h houtstanding hbytes

omit [DecidableEq Tid] in
theorem Streams.lossless (hlength : 0 < length) (h : Streams length s)
    (houtstanding : Outstanding s) : Lossless length s where
  writes_le := houtstanding.send.ops_le_one
  stream := h.stream
  drained := by
    intro hwrites hno
    have hsends := houtstanding.send
    rw [hwrites] at hsends
    have hsending : s.sending = false := by
      refine hsends.free_of_not_owns fun t ht => hno t ?_
      generalize s.threads t = pc at ht
      cases pc <;> first | exact ht | cases ht
    by_contra hsize
    obtain htrue | ⟨t, ht⟩ := h.requested hsize
    . cases hsending.symm.trans htrue
    . refine hno t ?_
      generalize s.threads t = pc at ht
      cases pc <;> first | exact ht | cases ht
  append := by
    intro data
    obtain ⟨b', hb', -⟩ := h.buffer.append hlength data
    rw [hb']
    rfl

/--
Nothing is lost, doubled or reordered, and nothing waits for another `send`.
-/
theorem lossless_of_undisturbed (length : Nat) (hlength : 0 < length) (s : State Tid)
    (es : List (Event Tid)) (hrun : (machine length).run (machine length).init es = some s)
    (hundisturbed : (machine length).Along Undisturbed (machine length).init es) :
    Lossless length s := by
  have hinv : Streams length s ∧ Outstanding s := by
    refine Machine.inv_of_along (fun s => Streams length s ∧ Outstanding s) ?_ hrun hundisturbed
      ⟨streams_init, outstanding_init⟩
    intro s e s' ⟨hstreams, houtstanding⟩ hundisturbed hstep
    exact ⟨streams_step hlength hstreams houtstanding hundisturbed hstep,
      outstanding_step houtstanding hstep⟩
  exact hinv.1.lossless hlength hinv.2

def writing (data : List UInt8) : List (Event Unit) :=
  [.send () data, .next () true, .next () true, .next () true, .next () true, .next () true,
    .next () true, .transmit 0 data.length, .writeDone () 0 true]

theorem lossless_of_undisturbed_writing :
    ∃ s, (machine 2).run (machine 2).init (writing [1, 2, 3]) = some s ∧ Lossless 2 s := by
  refine ⟨_, rfl, lossless_of_undisturbed 2 (by decide) _ (writing [1, 2, 3]) rfl ?_⟩
  unfold writing
  repeat' first
    | exact trivial
    | refine Machine.along_cons ⟨rfl, fun _ _ => (nomatch ·)⟩ rfl ?_

end Session
end Lax
