import Lax.Net.BitsProtocol.Impl.Modified
import Lax.Net.Modifier.Lemmas.Checksum
import Lax.Net.Modifier.Lemmas.Cipher
import Lax.Net.Modifier.Lemmas.Sequencer

/-!
This module contains what holds for every frame that `recv_modified` gets, well formed or not.
-/

namespace Lax
namespace Modifiers

open BlockMode

variable (lib : Botan) (cfg : Config)

-- `recv_modified` after its first and after its second branch
def afterCipher (flags : Flags) (mods : Modifiers) (buf : List UInt8) (msgPos msgLen : Nat) :
    Received Modifiers :=
  (Received.start buf mods msgLen).andThen (cfg.enableCipher && flags.enableCipher)
    fun buf mods msgLen => recvCipher lib cfg mods buf msgPos msgLen

def afterChecksum (flags : Flags) (mods : Modifiers) (buf : List UInt8) (msgPos msgLen : Nat) :
    Received Modifiers :=
  (afterCipher lib cfg flags mods buf msgPos msgLen).andThen
    (cfg.enableChecksum && flags.enableChecksum)
    fun buf mods msgLen => recvChecksum lib mods buf msgPos msgLen

theorem recvModified_eq (flags : Flags) (mods : Modifiers) (buf : List UInt8)
    (msgPos msgLen : Nat) :
    recvModified lib cfg flags mods buf msgPos msgLen
      =
    (afterChecksum lib cfg flags mods buf msgPos msgLen).andThen
      (cfg.enableSequence && flags.enableSequence)
      fun buf mods msgLen => recvSequence mods buf msgPos msgLen := rfl

variable {lib cfg} {flags : Flags}

/-!
### Lengths
-/

theorem length_buf_afterCipher (mods : Modifiers) {buf : List UInt8} {msgLen : Nat}
    (hle : msgLen ≤ buf.length) :
    (afterCipher lib cfg flags mods buf 0 msgLen).buf.length = buf.length := by
  unfold afterCipher
  cases cfg.enableCipher && flags.enableCipher with
  | false =>
    rw [Received.andThen_false]
    rfl
  | true =>
    rw [Received.andThen_true rfl]
    exact Cipher.length_buf_onRecv lib cfg _ buf msgLen hle

theorem afterCipher_eq_ok {mods : Modifiers} {buf : List UInt8} {msgLen newLen : Nat}
    (hle : msgLen ≤ buf.length)
    (h : (afterCipher lib cfg flags mods buf 0 msgLen).rc = .ok newLen) :
    newLen ≤ msgLen ∧ (newLen = msgLen ∨ headerLength ≤ newLen) := by
  unfold afterCipher at h
  cases henabled : cfg.enableCipher && flags.enableCipher with
  | false =>
    rw [henabled, Received.andThen_false] at h
    injection h with h
    omega
  | true =>
    rw [henabled, Received.andThen_true rfl] at h
    obtain ⟨hge, hle⟩ := Cipher.le_of_onRecv_eq_ok lib cfg _ hle h
    exact ⟨hle, Or.inr hge⟩

theorem buf_afterChecksum (mods : Modifiers) (buf : List UInt8) (msgPos msgLen : Nat) :
    (afterChecksum lib cfg flags mods buf msgPos msgLen).buf
      =
    (afterCipher lib cfg flags mods buf msgPos msgLen).buf := by
  unfold afterChecksum
  cases hrc : (afterCipher lib cfg flags mods buf msgPos msgLen).rc with
  | error e => rw [Received.andThen_error hrc]
  | ok msgLen =>
    cases cfg.enableChecksum && flags.enableChecksum with
    | false => rw [Received.andThen_false]
    | true =>
      rw [Received.andThen_true hrc]
      exact Checksum.buf_onRecv lib _ _ _

theorem afterChecksum_eq_ok {mods : Modifiers} {buf : List UInt8} {msgLen newLen : Nat}
    (hle : msgLen ≤ buf.length)
    (h : (afterChecksum lib cfg flags mods buf 0 msgLen).rc = .ok newLen) :
    newLen ≤ msgLen ∧ (newLen = msgLen ∨ headerLength ≤ newLen) := by
  unfold afterChecksum at h
  cases hrc : (afterCipher lib cfg flags mods buf 0 msgLen).rc with
  | error e =>
    rw [Received.andThen_error hrc, hrc] at h
    contradiction
  | ok cipherLen =>
    have hcipher := afterCipher_eq_ok hle hrc
    cases henabled : cfg.enableChecksum && flags.enableChecksum with
    | false =>
      rw [henabled, Received.andThen_false, hrc] at h
      injection h with h
      omega
    | true =>
      rw [henabled, Received.andThen_true hrc] at h
      have := Checksum.onRecv_eq_ok lib h
      omega

theorem buf_recvModified (mods : Modifiers) (buf : List UInt8) (msgPos msgLen : Nat) :
    (recvModified lib cfg flags mods buf msgPos msgLen).buf
      =
    (afterCipher lib cfg flags mods buf msgPos msgLen).buf := by
  rw [recvModified_eq, ← buf_afterChecksum]
  cases hrc : (afterChecksum lib cfg flags mods buf msgPos msgLen).rc with
  | error e => rw [Received.andThen_error hrc]
  | ok msgLen =>
    cases cfg.enableSequence && flags.enableSequence with
    | false => rw [Received.andThen_false]
    | true =>
      rw [Received.andThen_true hrc]
      exact Sequencer.buf_onRecv _ _ _ _

/-!
### Frames inside of a buffer
-/

theorem afterCipher_embed (mods : Modifiers) (pre mid post : List UInt8) (msgLen : Nat)
    (hle : msgLen ≤ mid.length) :
    afterCipher lib cfg flags mods (pre ++ mid ++ post) pre.length msgLen
      =
    (afterCipher lib cfg flags mods mid 0 msgLen).embed pre post := by
  unfold afterCipher
  rw [Received.start_embed]
  apply Received.andThen_embed
  intro newLen _ hrc
  injection hrc with hrc
  subst hrc
  unfold recvCipher
  dsimp only [Received.start]
  rw [Cipher.onRecv_embed lib cfg _ _ _ _ _ hle]
  rfl

theorem afterChecksum_embed (mods : Modifiers) (pre mid post : List UInt8) (msgLen : Nat)
    (hle : msgLen ≤ mid.length) :
    afterChecksum lib cfg flags mods (pre ++ mid ++ post) pre.length msgLen
      =
    (afterChecksum lib cfg flags mods mid 0 msgLen).embed pre post := by
  unfold afterChecksum
  rw [afterCipher_embed mods pre mid post msgLen hle]
  apply Received.andThen_embed
  intro newLen _ hrc
  have hlen := @length_buf_afterCipher lib cfg flags mods _ _ hle
  have := afterCipher_eq_ok hle hrc
  unfold recvChecksum
  rw [Checksum.onRecv_embed lib _ _ _ _ (by omega)]
  rfl

-- A frame is treated alike wherever it lies, unless there is no byte for the sequence in it.
theorem recvModified_embed (mods : Modifiers) (pre mid post : List UInt8) (msgLen : Nat)
    (hpos : (cfg.enableSequence && flags.enableSequence) = true → 0 < msgLen)
    (hle : msgLen ≤ mid.length) :
    recvModified lib cfg flags mods (pre ++ mid ++ post) pre.length msgLen
      =
    (recvModified lib cfg flags mods mid 0 msgLen).embed pre post := by
  rw [recvModified_eq, recvModified_eq, afterChecksum_embed mods pre mid post msgLen hle]
  apply Received.andThen_embed
  intro newLen henabled hrc
  have hlen := @length_buf_afterCipher lib cfg flags mods _ _ hle
  have := afterChecksum_eq_ok hle hrc
  have := hpos henabled
  have hheader : headerLength = 8 := rfl
  unfold recvSequence
  rw [Sequencer.onRecv_embed _ _ _ _ _ (by omega) (by rw [buf_afterChecksum]; omega)]
  rfl

theorem split_of_inRange {buf : List UInt8} {msgPos msgLen : Nat} (h : InRange buf msgPos msgLen) :
    ∃ pre mid, buf = pre ++ mid ∧ pre.length = msgPos ∧ msgLen ≤ mid.length := by
  have hrange : msgPos + msgLen ≤ buf.length := h
  refine ⟨buf.take msgPos, buf.drop msgPos, ?_, ?_, ?_⟩
  . rw [List.take_append_drop]
  . rw [List.length_take]
    omega
  . rw [List.length_drop]
    omega

theorem length_buf_recvModified (mods : Modifiers) {buf : List UInt8} {msgPos msgLen : Nat}
    (h : InRange buf msgPos msgLen) :
    (recvModified lib cfg flags mods buf msgPos msgLen).buf.length = buf.length := by
  obtain ⟨pre, mid, rfl, rfl, hle⟩ := split_of_inRange h
  have hembed := @afterCipher_embed lib cfg flags mods pre mid [] msgLen hle
  rw [List.append_nil] at hembed
  rw [buf_recvModified, hembed, Received.buf_embed, List.append_nil, List.length_append,
    List.length_append, length_buf_afterCipher mods hle]

-- The final length is at most the length of the frame, if it has not wrapped around.
theorem recvModified_eq_ok {mods : Modifiers} {buf : List UInt8} {msgPos msgLen newLen : Nat}
    (hin : InRange buf msgPos msgLen)
    (h : (recvModified lib cfg flags mods buf msgPos msgLen).rc = .ok newLen) :
    newLen ≤ msgLen ∨ newLen = 2 ^ 64 - 1 := by
  obtain ⟨pre, mid, rfl, rfl, hle⟩ := split_of_inRange hin
  have hembed := @afterChecksum_embed lib cfg flags mods pre mid [] msgLen hle
  rw [List.append_nil] at hembed
  rw [recvModified_eq, hembed] at h
  have hrc' := @Received.rc_embed _ pre [] (afterChecksum lib cfg flags mods mid 0 msgLen)
  cases hrc : (afterChecksum lib cfg flags mods mid 0 msgLen).rc with
  | error e =>
    rw [Received.andThen_error (hrc'.trans hrc), hrc', hrc] at h
    contradiction
  | ok checksumLen =>
    have hchecksum := afterChecksum_eq_ok hle hrc
    cases henabled : cfg.enableSequence && flags.enableSequence with
    | false =>
      rw [henabled, Received.andThen_false, Received.rc_embed, hrc] at h
      injection h with h
      omega
    | true =>
      rw [henabled, Received.andThen_true (hrc'.trans hrc)] at h
      have := Sequencer.onRecv_eq_ok _ h
      unfold sizeSub sequenceSize at this
      split at this <;> omega

end Modifiers
end Lax
