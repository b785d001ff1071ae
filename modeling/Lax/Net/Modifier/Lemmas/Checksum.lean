import Lax.Net.Modifier.Impl.Checksum
import Lax.Net.Modifier.Lemmas.Basic

namespace Lax
namespace Checksum

variable (lib : Botan)

theorem hashLen_of_le {msgLen : Nat} (h : checksumSize + headerLength ≤ msgLen) :
    sizeSub (sizeSub msgLen checksumSize) headerLength = msgLen - checksumSize - headerLength := by
  rw [@sizeSub_of_le msgLen _ (by omega), sizeSub_of_le (by omega)]

@[simp]
theorem buf_onRecv (buf : List UInt8) (msgPos msgLen : Nat) :
    (onRecv lib buf msgPos msgLen).buf = buf := by
  unfold onRecv
  split
  . rfl
  . dsimp only
    split
    . rfl
    . split
      . rfl
      . split <;> rfl

theorem onRecv_of_eq (buf : List UInt8) (msgPos : Nat) :
    onRecv lib buf msgPos headerLength = .start buf () headerLength := by
  simp [onRecv]

theorem onRecv_of_lt (buf : List UInt8) (msgPos msgLen : Nat) (hne : msgLen ≠ headerLength)
    (h : msgLen < checksumSize + headerLength) :
    (onRecv lib buf msgPos msgLen).rc = .error .fault := by
  unfold onRecv
  rw [if_neg hne]
  dsimp only
  rw [if_pos (Or.inl h)]

theorem onRecv_eq_ok {buf : List UInt8} {msgPos msgLen newLen : Nat}
    (h : (onRecv lib buf msgPos msgLen).rc = .ok newLen) :
    msgLen = headerLength ∧ newLen = headerLength
      ∨ checksumSize + headerLength ≤ msgLen ∧ newLen = msgLen - checksumSize := by
  by_cases hheader : msgLen = headerLength
  . left
    rw [hheader, onRecv_of_eq] at h
    injection h with h
    exact ⟨hheader, h.symm⟩
  . right
    by_cases hlen : msgLen < checksumSize + headerLength
    . rw [onRecv_of_lt lib buf msgPos msgLen hheader hlen] at h
      contradiction
    . refine ⟨by omega, ?_⟩
      unfold onRecv at h
      rw [if_neg hheader] at h
      dsimp only at h
      split at h
      . contradiction
      . split at h
        . contradiction
        . split at h
          . contradiction
          . injection h with h
            rw [← h, sizeSub_of_le (by omega)]

theorem onRecv_embed (pre mid post : List UInt8) (msgLen : Nat) (hle : msgLen ≤ mid.length) :
    onRecv lib (pre ++ mid ++ post) pre.length msgLen
      =
    (onRecv lib mid 0 msgLen).embed pre post := by
  by_cases hheader : msgLen = headerLength
  . rw [hheader, onRecv_of_eq, onRecv_of_eq, Received.start_embed]
  . by_cases hlen : msgLen < checksumSize + headerLength
    . unfold onRecv
      rw [if_neg hheader, if_neg hheader]
      dsimp only
      rw [if_pos (Or.inl hlen), if_pos (Or.inl hlen)]
      simp [Received.embed, Event.shift]
    . have hhash := @hashLen_of_le msgLen (by omega)
      have hcrc : sizeSub (pre.length + msgLen) checksumSize
          = pre.length + (msgLen - checksumSize) := by
        rw [sizeSub_of_le (by omega)]
        omega
      have hcrc' : sizeSub (0 + msgLen) checksumSize = msgLen - checksumSize := by
        rw [sizeSub_of_le (by omega)]
        omega
      have hin : ∀ pos len, pos + len ≤ msgLen →
          InRange (pre ++ mid ++ post) (pre.length + pos) len ∧ InRange mid pos len := by
        intro pos len hpos
        simp only [InRange, List.length_append]
        omega
      have hread : ∀ pos len, pos + len ≤ msgLen →
          Slice.read (pre ++ mid ++ post) (pre.length + pos) len = Slice.read mid pos len := by
        intro pos len hpos
        apply Slice.read_middle
        omega
      obtain ⟨hin₁, hin₂⟩ := hin headerLength (msgLen - checksumSize - headerLength) (by omega)
      obtain ⟨hin₃, hin₄⟩ := hin (msgLen - checksumSize) checksumSize (by omega)
      unfold onRecv
      rw [if_neg hheader, if_neg hheader]
      dsimp only
      rw [hhash, hcrc, hcrc', Nat.zero_add]
      rw [hread headerLength _ (by omega), hread (msgLen - checksumSize) _ (by omega)]
      rw [if_neg (not_or.mpr ⟨hlen, (· hin₁)⟩), if_neg (not_or.mpr ⟨hlen, (· hin₂)⟩)]
      rw [@if_neg (¬InRange (pre ++ mid ++ post) _ _) _ (· hin₃),
        @if_neg (¬InRange mid _ _) _ (· hin₄)]
      split <;> simp [Received.embed, Event.shift]

theorem onRecv_append (hdr body crc : List UInt8) (hhdr : hdr.length = headerLength)
    (hcrc : crc.length = checksumSize) :
    (onRecv lib (hdr ++ body ++ crc) 0 (headerLength + body.length + checksumSize)).rc
      =
    if crc = lib.crc32 body then
      .ok (headerLength + body.length)
    else
      .error (.result .failIncorrectChecksum) := by
  have hlen : (hdr ++ body ++ crc).length = headerLength + body.length + checksumSize := by
    simp only [List.length_append, hhdr, hcrc]
  have hsize : checksumSize = 4 := rfl
  have hne : headerLength + body.length + checksumSize ≠ headerLength := by omega
  have hge : ¬headerLength + body.length + checksumSize < checksumSize + headerLength := by omega
  have hhash := @hashLen_of_le (headerLength + body.length + checksumSize) (by omega)
  have hin : InRange (hdr ++ body ++ crc) headerLength body.length := by
    unfold InRange
    omega
  have hin' : InRange (hdr ++ body ++ crc) (headerLength + body.length) checksumSize := by
    unfold InRange
    omega
  have hbody : headerLength + body.length + checksumSize - checksumSize - headerLength
      = body.length := by omega
  have hpos : sizeSub (0 + (headerLength + body.length + checksumSize)) checksumSize
      = headerLength + body.length := by
    rw [sizeSub_of_le (by omega)]
    omega
  have hread : Slice.read (hdr ++ body ++ crc) headerLength body.length = body := by
    rw [read_body hhdr body crc (Nat.le_refl _), List.take_length]
  have hread' : Slice.read (hdr ++ body ++ crc) (headerLength + body.length) checksumSize = crc := by
    have := Slice.read_start (hdr ++ body) crc [] (Nat.le_of_eq hcrc.symm)
    rw [List.length_append, hhdr, List.append_nil] at this
    rw [this, ← hcrc, List.take_length]
  unfold onRecv
  rw [if_neg hne]
  dsimp only
  rw [hhash, hbody, hpos, Nat.zero_add, if_neg (not_or.mpr ⟨hge, (· hin)⟩),
    if_neg (· hin'), hread, hread']
  by_cases heq : crc = lib.crc32 body
  . rw [if_neg (by simpa using heq), if_pos heq, sizeSub_of_le (by omega)]
    simp
  . rw [if_pos heq, if_neg heq]

theorem ok_of_mem_trace {buf : List UInt8} {msgLen : Nat}
    (h : msgLen = headerLength ∨ checksumSize + headerLength ≤ msgLen) :
    ∀ e ∈ (onRecv lib buf 0 msgLen).trace, e.Ok 0 msgLen := by
  rcases h with rfl | hle
  . rw [onRecv_of_eq]
    intro e he
    cases he
  . have hsize : checksumSize = 4 := rfl
    have hhash := hashLen_of_le hle
    have hcrc : sizeSub (0 + msgLen) checksumSize = msgLen - checksumSize := by
      rw [sizeSub_of_le (by omega)]
      omega
    have hbody : sizeSub msgLen checksumSize = msgLen - checksumSize := sizeSub_of_le (by omega)
    have hhashed : ∀ e ∈ [Event.subtract msgLen checksumSize,
        .subtract (msgLen - checksumSize) headerLength,
        .access (0 + headerLength) (msgLen - checksumSize - headerLength)], e.Ok 0 msgLen := by
      simp only [List.forall_mem_cons, Event.Ok]
      refine ⟨by omega, by omega, by omega, List.forall_mem_nil _⟩
    have hcompared : ∀ e ∈ [Event.access (msgLen - checksumSize) checksumSize], e.Ok 0 msgLen := by
      simp only [List.forall_mem_cons, Event.Ok]
      exact ⟨by omega, List.forall_mem_nil _⟩
    unfold onRecv
    rw [if_neg (by omega), hcrc]
    dsimp only
    rw [hhash, hbody]
    split
    . exact hhashed
    . split
      . exact List.forall_mem_append.mpr ⟨hhashed, hcompared⟩
      . split <;> exact List.forall_mem_append.mpr ⟨hhashed, hcompared⟩

theorem onSend_eq (hdr body : List UInt8) (hhdr : hdr.length = headerLength) :
    onSend lib (hdr ++ body) 0 (hdr ++ body).length
      =
    if body = [] then
      hdr ++ body
    else
      updateLengthField (hdr ++ body ++ lib.crc32 body) 0 ((hdr ++ body).length + checksumSize) := by
  have hlen : (hdr ++ body).length = headerLength + body.length := by
    simp only [List.length_append, hhdr]
  unfold onSend
  by_cases hbody : body = []
  . subst hbody
    rw [if_pos (by simpa using hhdr), if_pos rfl]
  . have hpos : 0 < body.length := List.length_pos_iff.mpr hbody
    have hread : Slice.read (hdr ++ body) (0 + headerLength) (sizeSub (hdr ++ body).length headerLength)
        = body := by
      rw [hlen, sizeSub_of_le (by omega), Nat.zero_add, Nat.add_sub_cancel_left]
      exact read_all_body hhdr body
    have hwrite : ∀ crc : List UInt8, crc.length = checksumSize →
        Slice.write (hdr ++ body ++ [97, 98, 99, 100]) (0 + (hdr ++ body).length) crc
          = hdr ++ body ++ crc := by
      intro crc hcrc
      have hdrop : (hdr ++ body ++ [97, 98, 99, 100]).drop ((hdr ++ body).length + crc.length) = [] := by
        apply List.drop_eq_nil_of_le
        rw [hcrc, List.length_append]
        exact Nat.le_refl _
      unfold Slice.write
      rw [Nat.zero_add, hdrop, List.take_left, List.append_nil]
    have hne : (hdr ++ body).length ≠ headerLength := by omega
    rw [if_neg hne, if_neg hbody, hread]
    dsimp only
    rw [hwrite _ (lib.length_crc32 body)]

end Checksum
end Lax
