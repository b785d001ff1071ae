import Lax.Net.BitsProtocol.Lemmas.Waiting

/-!
This module contains how many bytes `on_recv` keeps. The configured `max_packet_length` is never read, so
a peer that announces a longer frame is listened to.
-/

namespace Lax
namespace BitsProtocol

open BitsMessage

variable {Body : UInt32 → Type} {env : Env Body}

-- The default of `max_packet_length`.
def maxPacketLength : Nat := 512 * 1024

-- The header of one of the frames has arrived, and its length field exceeds `maxLength`.
def Announces (maxLength : Nat) (xs : List UInt8) : Prop :=
  ∃ tail, Cut xs tail ∧ headerLength ≤ tail.length ∧ maxLength < getLength tail 0

-- What has arrived of a header alone is more than `maxLength` bytes.
def EndsInLongHeader (maxLength : Nat) (xs : List UInt8) : Prop :=
  ∃ tail, Cut xs tail ∧ maxLength < tail.length ∧ tail.length ≤ headerLength

-- What is asked of the reads so far, all of which were successful: none of the frames was to be rejected, and
-- `retained` is not too much.
structure Limited (maxLength : Nat) (xs retained : List UInt8) : Prop where
  announced : ∀ tail, Cut xs tail → headerLength ≤ tail.length → getLength tail 0 ≤ maxLength
  retained : retained.length ≤ maxLength

-- `rest` waits for more bytes.
theorem limited_iff_of_cut {maxLength : Nat} {xs rest : List UInt8} (h : Cut xs rest)
    (hend : headerLength < rest.length → rest.length < getLength rest 0) :
    Limited maxLength xs rest ↔ ¬Announces maxLength xs ∧ ¬EndsInLongHeader maxLength xs := by
  constructor
  . rintro ⟨hannounced, hretained⟩
    constructor
    . rintro ⟨tail, hcut, hheader, hlt⟩
      exact Nat.not_lt_of_le (hannounced tail hcut hheader) hlt
    . rintro ⟨tail, hcut, hlt, hshort⟩
      have heq := hcut.unique h (fun hlong => absurd hshort (Nat.not_le_of_lt hlong)) hend
      subst heq
      exact Nat.not_lt_of_le hretained hlt
  . rintro ⟨hannounces, hends⟩
    constructor
    . intro tail hcut hheader
      apply Nat.le_of_not_lt
      exact fun hlt => hannounces ⟨tail, hcut, hheader, hlt⟩
    . apply Nat.le_of_not_lt
      intro hlt
      by_cases hshort : rest.length ≤ headerLength
      . exact hends ⟨rest, h, hlt, hshort⟩
      . have hlong := Nat.lt_of_not_le hshort
        have hwaits := hend hlong
        exact hannounces ⟨rest, h, Nat.le_of_lt hlong, Nat.lt_trans hlt hwaits⟩

/--
`chunks` are all reads up to any one of them.
-/
theorem limited_iff (env : Env Body) (maxLength : Nat) (chunks : List (List UInt8))
    (h : (onRecvAll env onBind chunks).rc = .ok ()) :
    Limited maxLength chunks.flatten (onRecvAll env onBind chunks).protocol.recvBuf
      ↔ ¬Announces maxLength chunks.flatten ∧ ¬EndsInLongHeader maxLength chunks.flatten := by
  obtain ⟨hcut, hend⟩ := cut_of_onRecvAll h (p := onBind) (by decide)
  exact limited_iff_of_cut hcut hend

theorem limited_iff_partial :
    let env := Env.single 1 {}
    let bytes := [9, 0, 0, 0, 1, 0, 0, 0]
    Limited maxPacketLength [bytes].flatten (onRecvAll env onBind [bytes]).protocol.recvBuf
      ↔ ¬Announces maxPacketLength [bytes].flatten ∧ ¬EndsInLongHeader maxPacketLength [bytes].flatten := by
  apply limited_iff
  rw [onRecvAll_of_none (by decide) rfl]

-- As many bytes as a peer likes to send, if it announces `2 ^ 32 - 1` of them.
theorem exists_not_limited :
    let env := Env.single 1 {}
    ∃ bytes, (onRecvAll env onBind [bytes]).rc = .ok ()
      ∧ Announces maxPacketLength [bytes].flatten
      ∧ maxPacketLength < (onRecvAll env onBind [bytes]).protocol.recvBuf.length := by
  intro env
  have hlength : (([255, 255, 255, 255] : List UInt8) ++ List.replicate 600000 0).length = 600004 := by
    rw [List.length_append, List.length_replicate]
    rfl
  have hannounced : getLength ([255, 255, 255, 255] ++ List.replicate 600000 0) 0 = 2 ^ 32 - 1 := by
    have hfield := toNat_getValue4b 255 255 255 255 (List.replicate 600000 0)
    exact hfield.trans (by decide)
  generalize ([255, 255, 255, 255] : List UInt8) ++ List.replicate 600000 0 = bytes at *
  have hne : bytes ≠ [] := by
    apply List.ne_nil_of_length_pos
    omega
  have hnone : nextCall onBind.mods (onBind.recvBuf ++ bytes) 0 = none := by
    apply nextCall_eq_none_iff.mpr
    intro _
    show bytes.length < getLength bytes 0
    omega
  have hmax : maxPacketLength = 524288 := rfl
  refine ⟨bytes, ?_⟩
  rw [onRecvAll_of_none hne hnone]
  refine ⟨rfl, ⟨bytes, ?_, ?_, ?_⟩, ?_⟩
  . simpa using Cut.nil bytes
  . rw [hlength]
    decide
  . omega
  . show maxPacketLength < bytes.length
    omega

end BitsProtocol
end Lax
