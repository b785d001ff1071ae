import Lax.Net.Modifier.Impl.Sequencer
import Lax.Net.Modifier.Lemmas.Basic

namespace Lax
namespace Sequencer

variable (s : Sequencer)

@[simp]
theorem buf_onRecv (buf : List UInt8) (msgPos msgLen : Nat) :
    (s.onRecv buf msgPos msgLen).buf = buf := by
  unfold onRecv
  dsimp only
  split
  . rfl
  . split <;> rfl

theorem onRecv_eq_ok {buf : List UInt8} {msgPos msgLen newLen : Nat}
    (h : (s.onRecv buf msgPos msgLen).rc = .ok newLen) : newLen = sizeSub msgLen sequenceSize := by
  unfold onRecv at h
  dsimp only at h
  split at h
  . contradiction
  . split at h
    . injection h with h
      exact h.symm
    . contradiction

theorem onRecv_embed (pre mid post : List UInt8) (msgLen : Nat) (hpos : 0 < msgLen)
    (hle : msgLen ≤ mid.length) :
    s.onRecv (pre ++ mid ++ post) pre.length msgLen = (s.onRecv mid 0 msgLen).embed pre post := by
  have hsize : sequenceSize = 1 := rfl
  have hpos' : sizeSub (pre.length + msgLen) sequenceSize = pre.length + (msgLen - 1) := by
    rw [sizeSub_of_le (by omega)]
    omega
  have hzero : sizeSub (0 + msgLen) sequenceSize = msgLen - 1 := by
    rw [sizeSub_of_le (by omega)]
    omega
  have hget : (pre ++ mid ++ post)[pre.length + (msgLen - 1)]? = mid[msgLen - 1]? := by
    apply Slice.getElem?_middle
    omega
  unfold onRecv
  rw [hpos', hzero]
  dsimp only
  rw [hget]
  split
  . rfl
  . split <;> rfl

theorem onRecv_append (buf : List UInt8) (seq : UInt8) :
    s.onRecv (buf ++ [seq]) 0 (buf.length + 1)
      =
    if seq = s.recvSeq then
      ⟨
        .ok buf.length, buf ++ [seq], { s with recvSeq := s.recvSeq + 1 },
        [.access buf.length 1, .subtract (buf.length + 1) 1]
      ⟩
    else
      ⟨
        .error (.result .failInvalidMessageSequence), buf ++ [seq],
        { s with recvSeq := s.recvSeq + 1 }, [.access buf.length 1]
      ⟩ := by
  have hsize : sequenceSize = 1 := rfl
  have hpos : sizeSub (0 + (buf.length + 1)) sequenceSize = buf.length := by
    rw [sizeSub_of_le (by omega)]
    omega
  have hlen : sizeSub (buf.length + 1) sequenceSize = buf.length := by
    rw [sizeSub_of_le (by omega)]
    omega
  have hget : (buf ++ [seq])[buf.length]? = some seq := by simp
  unfold onRecv
  rw [hpos, hlen]
  dsimp only
  rw [hget]

theorem mem_trace_onRecv (buf : List UInt8) (msgPos msgLen : Nat) :
    .access (sizeSub (msgPos + msgLen) sequenceSize) sequenceSize
      ∈ (s.onRecv buf msgPos msgLen).trace := by
  unfold onRecv
  dsimp only
  split
  . exact List.mem_singleton_self _
  . split
    . exact List.mem_cons_self
    . exact List.mem_singleton_self _

theorem ok_of_mem_trace {buf : List UInt8} {msgLen : Nat} (hpos : 0 < msgLen) :
    ∀ e ∈ (s.onRecv buf 0 msgLen).trace, e.Ok 0 msgLen := by
  have hsize : sequenceSize = 1 := rfl
  have hzero : sizeSub (0 + msgLen) sequenceSize = msgLen - 1 := by
    rw [sizeSub_of_le (by omega)]
    omega
  have haccess : (Event.access (msgLen - 1) sequenceSize).Ok 0 msgLen := by
    unfold Event.Ok
    omega
  unfold onRecv
  rw [hzero]
  dsimp only
  split
  . simpa using haccess
  . split
    . simp only [List.forall_mem_cons]
      exact ⟨haccess, hpos, fun e he => nomatch he⟩
    . simpa using haccess

theorem result_of_onRecv {buf : List UInt8} {msgLen : Nat} {e : Failure} (hpos : 0 < msgLen)
    (hle : msgLen ≤ buf.length) (h : (s.onRecv buf 0 msgLen).rc = .error e) :
    e = .result .failInvalidMessageSequence := by
  have hsize : sequenceSize = 1 := rfl
  have hzero : sizeSub (0 + msgLen) sequenceSize = msgLen - 1 := by
    rw [sizeSub_of_le (by omega)]
    omega
  unfold onRecv at h
  rw [hzero] at h
  dsimp only at h
  split at h
  . next hnone =>
    rw [List.getElem?_eq_none_iff] at hnone
    omega
  . split at h
    . contradiction
    . injection h with h
      exact h.symm

theorem onSend_eq (buf : List UInt8) :
    s.onSend buf 0 buf.length
      =
    (updateLengthField (buf ++ [s.sendSeq]) 0 (buf.length + 1),
      { s with sendSeq := s.sendSeq + 1 }) := by
  have hwrite : Slice.write (buf ++ [97]) (0 + buf.length) [s.sendSeq] = buf ++ [s.sendSeq] := by
    simp [Slice.write]
  unfold onSend
  dsimp only
  rw [hwrite]

/-!
### Streams of frames
-/

-- The length field ends before the sequence.
theorem onSend_plain (m : Plain) :
    s.onSend m.bytes 0 m.bytes.length
      =
    ((lengthField (m.bytes.length + 1) ++ m.bytes.drop 4) ++ [s.sendSeq],
      { s with sendSeq := s.sendSeq + 1 }) := by
  have hdrop : (m.bytes ++ [s.sendSeq]).drop 4 = m.bytes.drop 4 ++ [s.sendSeq] :=
    List.drop_append_of_le_length m.hasLength
  rw [onSend_eq, updateLengthField_zero, hdrop, List.append_assoc]

theorem getElem?_sendAll {ms : List Plain} {p : Nat} {frame : List UInt8}
    (hframe : (s.sendAll ms)[p]? = some frame) :
    ∃ buf, frame = buf ++ [s.sendSeq + UInt8.ofNat p] := by
  induction ms generalizing s p with
  | nil => cases hframe
  | cons m ms ih =>
    unfold sendAll at hframe
    rw [onSend_plain] at hframe
    cases p with
    | zero =>
      injection hframe with hframe
      refine ⟨lengthField (m.bytes.length + 1) ++ m.bytes.drop 4, ?_⟩
      rw [← hframe]
      simp
    | succ p =>
      obtain ⟨buf, hbuf⟩ := ih _ hframe
      refine ⟨buf, ?_⟩
      rw [hbuf, UInt8.ofNat_add]
      simp [UInt8.add_assoc, UInt8.add_comm]

theorem onRecv_last (buf : List UInt8) (seq : UInt8) :
    (s.onRecv (buf ++ [seq]) 0 (buf ++ [seq]).length).rc
        = (if seq = s.recvSeq then .ok buf.length
          else .error (.result .failInvalidMessageSequence))
      ∧ (s.onRecv (buf ++ [seq]) 0 (buf ++ [seq]).length).state
        = { s with recvSeq := s.recvSeq + 1 } := by
  rw [List.length_append, List.length_singleton, onRecv_append]
  split
  . exact ⟨rfl, rfl⟩
  . exact ⟨rfl, rfl⟩

-- The positions count modulo `256`, and it does not matter whether the frames before were accepted.
theorem getElem?_recvAll {ms : List Plain} (stream : List (Fin (s.sendAll ms).length))
    (r : Sequencer) (i : Nat) :
    (r.recvAll (stream.map (s.sendAll ms).get))[i]?
      = stream[i]?.map fun p : Fin _ =>
          if s.sendSeq + UInt8.ofNat p.val = r.recvSeq + UInt8.ofNat i then
            .ok (((s.sendAll ms).get p).length - 1)
          else
            .error (.result .failInvalidMessageSequence) := by
  induction stream generalizing r i with
  | nil => rfl
  | cons p stream ih =>
    have hframe : (s.sendAll ms)[p.val]? = some ((s.sendAll ms).get p) := by simp
    obtain ⟨buf, hbuf⟩ := s.getElem?_sendAll hframe
    obtain ⟨hrc, hstate⟩ := r.onRecv_last buf (s.sendSeq + UInt8.ofNat p.val)
    rw [List.map_cons]
    unfold recvAll
    dsimp only
    cases i with
    | zero =>
      have hlength : ((s.sendAll ms).get p).length - 1 = buf.length := by
        rw [hbuf, List.length_append]
        exact Nat.add_sub_cancel _ _
      rw [List.getElem?_cons_zero, List.getElem?_cons_zero, Option.map_some, hlength, hbuf, hrc]
      simp
    | succ i =>
      rw [hbuf, List.getElem?_cons_succ, hstate, ih]
      simp [UInt8.add_assoc, UInt8.add_comm 1]

theorem ofNat_eq_ofNat_iff (p i : Nat) :
    UInt8.ofNat p = UInt8.ofNat i ↔ (p + 1) % 256 = (i + 1) % 256 := by
  rw [← UInt8.toNat_inj, UInt8.toNat_ofNat', UInt8.toNat_ofNat']
  omega

theorem accepted_iff {ms : List Plain} {stream : List (Fin (onBind.sendAll ms).length)} {i : Nat}
    {p : Fin (onBind.sendAll ms).length} (hp : stream[i]? = some p) :
    (onBind.recvAll (stream.map (onBind.sendAll ms).get))[i]?
      = some (if (p.val + 1) % 256 = (i + 1) % 256 then .ok (((onBind.sendAll ms).get p).length - 1)
          else .error (.result .failInvalidMessageSequence)) := by
  have hiff : onBind.sendSeq + UInt8.ofNat p.val = onBind.recvSeq + UInt8.ofNat i
      ↔ (p.val + 1) % 256 = (i + 1) % 256 :=
    (UInt8.add_right_inj _).trans (ofNat_eq_ofNat_iff _ _)
  rw [getElem?_recvAll, hp, Option.map_some]
  simp only [hiff]

/--
Positions are counted from one. As long as all frames are accepted, each of them has been sent in its
turn, modulo `256`, and the first one that has not is rejected.
-/
theorem detects (ms : List Plain) (stream : List (Fin (onBind.sendAll ms).length)) :
    (∀ k, (∀ i < k, ∃ newLen,
          (onBind.recvAll (stream.map (onBind.sendAll ms).get))[i]? = some (.ok newLen)) →
        ∀ i < k, ∃ p, stream[i]? = some p ∧ (p.val + 1) % 256 = (i + 1) % 256)
      ∧ ∀ i p, stream[i]? = some p →
        (∀ j < i, ∀ q, stream[j]? = some q → (q.val + 1) % 256 = (j + 1) % 256) →
        (p.val + 1) % 256 ≠ (i + 1) % 256 →
        (onBind.recvAll (stream.map (onBind.sendAll ms).get))[i]?
          = some (.error (.result .failInvalidMessageSequence)) := by
  constructor
  . intro k haccepted i hi
    obtain ⟨newLen, hok⟩ := haccepted i hi
    cases hp : stream[i]? with
    | none =>
      rw [getElem?_recvAll, hp] at hok
      cases hok
    | some p =>
      refine ⟨p, rfl, ?_⟩
      rw [accepted_iff hp] at hok
      injection hok with hok
      split at hok
      . next heq => exact heq
      . cases hok
  . intro i p hp _ hne
    rw [accepted_iff hp, if_neg hne]

end Sequencer
end Lax
