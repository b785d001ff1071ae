import Lax.Net.BitsProtocol.Lemmas.Lockstep

/-!
This module contains what a receiver makes of a sealed frame if it takes too few or too many bytes
for the frame: never the message that was sealed.
-/

namespace Lax

open BlockMode

-- One of the two is a proper prefix of the other.
def Differs (xs ys : List UInt8) : Prop :=
  xs.length ≠ ys.length ∧ (xs <+: ys ∨ ys <+: xs)

namespace Differs

theorem nil {ys : List UInt8} (h : ys ≠ []) : Differs [] ys := by
  have := List.length_pos_iff.mpr h
  exact ⟨by simp only [List.length_nil]; omega, Or.inl List.nil_prefix⟩

theorem of_append {xs ys xs' ys' : List UInt8} (h : Differs (xs ++ xs') (ys ++ ys'))
    (hlen : xs'.length = ys'.length) : Differs xs ys := by
  obtain ⟨hne, hprefix⟩ := h
  refine ⟨?_, ?_⟩
  . simp only [List.length_append] at hne
    omega
  . rcases hprefix with hprefix | hprefix
    . exact List.prefix_or_prefix_of_prefix ((List.prefix_append xs xs').trans hprefix)
        (List.prefix_append ys ys')
    . exact List.prefix_or_prefix_of_prefix (List.prefix_append xs xs')
        ((List.prefix_append ys ys').trans hprefix)

theorem of_take {xs ys zs : List UInt8} (hxs : xs <+: ys ++ zs) (hlen : xs.length ≠ ys.length) :
    Differs xs ys :=
  ⟨hlen, List.prefix_or_prefix_of_prefix hxs (List.prefix_append ys zs)⟩

end Differs

namespace Modifiers

variable {lib : Botan} {cfg : Config} {flags : Flags} {mods : Modifiers} {hdr : List UInt8}
  (hhdr : hdr.length = headerLength)

include hhdr

theorem afterCipher_inv {body tail : List UInt8} {newLen : Nat}
    (h : (afterCipher lib cfg flags mods (hdr ++ body ++ tail) 0 (headerLength + body.length)).rc
      = .ok newLen) :
    ∃ body' tail', newLen = headerLength + body'.length
      ∧ (afterCipher lib cfg flags mods (hdr ++ body ++ tail) 0 (headerLength + body.length)).buf
        = hdr ++ body' ++ tail'
      ∧ if cfg.enableCipher && flags.enableCipher then
          body = [] ∧ body' = []
            ∨ ∃ blocks, body.length = (blocks + 1) * blockSize
              ∧ decryptMessage lib.aes128 mods.cipher.receiver.key mods.cipher.receiver.nonce body
                = some body'
        else
          body' = body := by
  have hembed := @afterCipher_embed lib cfg flags mods [] (hdr ++ body) tail
    (headerLength + body.length) (Nat.le_of_eq (by rw [List.length_append, hhdr]))
  rw [List.nil_append, List.length_nil] at hembed
  rw [hembed] at h ⊢
  rw [Received.rc_embed] at h
  rw [Received.buf_embed, List.nil_append]
  unfold afterCipher at *
  cases henabled : cfg.enableCipher && flags.enableCipher with
  | false =>
    rw [henabled, Received.andThen_false] at h
    rw [Received.andThen_false]
    injection h with h
    exact ⟨body, tail, h.symm, rfl, rfl⟩
  | true =>
    rw [henabled, Received.andThen_true rfl] at h
    rw [Received.andThen_true rfl]
    rcases Cipher.onRecv_eq_ok lib cfg mods.cipher.receiver hhdr h with
      ⟨rfl, hlen⟩ | ⟨plain, blocks, hblocks, hdec, hlen, hbuf⟩
    . have hheader := Cipher.onRecv_header lib cfg mods.cipher.receiver (hdr ++ []) 0
      unfold recvCipher
      dsimp only [Received.start]
      rw [List.length_nil, Nat.add_zero, hheader]
      exact ⟨[], tail, hlen, rfl, Or.inl ⟨rfl, rfl⟩⟩
    . unfold recvCipher
      dsimp only [Received.start, Received.buf_map]
      rw [hbuf, List.append_assoc]
      exact ⟨plain, _, hlen, rfl, Or.inr ⟨blocks, hblocks, hdec⟩⟩

omit hhdr in
theorem exists_append_of_le {body : List UInt8} {k : Nat} (h : k ≤ body.length) :
    ∃ body' cut, body = body' ++ cut ∧ cut.length = k := by
  refine ⟨body.take (body.length - k), body.drop (body.length - k), ?_, ?_⟩
  . rw [List.take_append_drop]
  . rw [List.length_drop]
    omega

theorem andThen_recvChecksum_inv {r : Received Modifiers} {body tail : List UInt8} {newLen : Nat}
    (hrc : r.rc = .ok (headerLength + body.length)) (hbuf : r.buf = hdr ++ body ++ tail)
    (h : (r.andThen (cfg.enableChecksum && flags.enableChecksum)
      fun buf mods msgLen => recvChecksum lib mods buf 0 msgLen).rc = .ok newLen) :
    ∃ body' tail', newLen = headerLength + body'.length
      ∧ r.buf = hdr ++ body' ++ tail'
      ∧ if cfg.enableChecksum && flags.enableChecksum then
          body = [] ∧ body' = [] ∨ ∃ crc, crc.length = checksumSize ∧ body = body' ++ crc
        else
          body' = body := by
  cases henabled : cfg.enableChecksum && flags.enableChecksum with
  | false =>
    rw [henabled, Received.andThen_false, hrc] at h
    injection h with h
    exact ⟨body, tail, h.symm, hbuf, rfl⟩
  | true =>
    rw [henabled, Received.andThen_true hrc] at h
    rcases Checksum.onRecv_eq_ok lib h with ⟨hlen, hnew⟩ | ⟨hlen, hnew⟩
    . have hbody : body = [] := List.length_eq_zero_iff.mp (by omega)
      subst hbody
      exact ⟨[], tail, hnew, hbuf, Or.inl ⟨rfl, rfl⟩⟩
    . obtain ⟨body', crc, rfl, hcrc⟩ := exists_append_of_le
        (show checksumSize ≤ body.length by omega)
      rw [List.length_append, hcrc] at hnew
      refine ⟨body', crc ++ tail, by omega, ?_, Or.inr ⟨crc, hcrc, rfl⟩⟩
      rw [hbuf]
      simp only [List.append_assoc]

omit hhdr in
theorem andThen_recvSequence_inv {r : Received Modifiers} {body tail : List UInt8} {newLen : Nat}
    (hrc : r.rc = .ok (headerLength + body.length)) (hbuf : r.buf = hdr ++ body ++ tail)
    (h : (r.andThen (cfg.enableSequence && flags.enableSequence)
      fun buf mods msgLen => recvSequence mods buf 0 msgLen).rc = .ok newLen)
    (hge : headerLength ≤ newLen) :
    ∃ body' tail', newLen = headerLength + body'.length
      ∧ r.buf = hdr ++ body' ++ tail'
      ∧ if cfg.enableSequence && flags.enableSequence then
          ∃ seq, seq.length = sequenceSize ∧ body = body' ++ seq
        else
          body' = body := by
  cases henabled : cfg.enableSequence && flags.enableSequence with
  | false =>
    rw [henabled, Received.andThen_false, hrc] at h
    injection h with h
    exact ⟨body, tail, h.symm, hbuf, rfl⟩
  | true =>
    rw [henabled, Received.andThen_true hrc] at h
    have hnew := Sequencer.onRecv_eq_ok _ h
    have hsize : sequenceSize = 1 := rfl
    have hheader : headerLength = 8 := rfl
    rw [sizeSub_of_le (by omega)] at hnew
    obtain ⟨body', seq, rfl, hseq⟩ := exists_append_of_le (show sequenceSize ≤ body.length by omega)
    rw [List.length_append, hseq] at hnew
    refine ⟨body', seq ++ tail, by omega, ?_, seq, hseq, rfl⟩
    rw [hbuf]
    simp only [List.append_assoc]

omit hhdr in
theorem differs_of_decryptMessage {sender : CipherImpl} {body taken rest plain : List UInt8}
    {blocks : Nat} (htaken : taken <+: encryptMessage lib.aes128 sender.key sender.nonce body ++ rest)
    (hlen : taken.length ≠ (encryptMessage lib.aes128 sender.key sender.nonce body).length)
    (hblocks : taken.length = (blocks + 1) * blockSize)
    (hdec : decryptMessage lib.aes128 sender.key sender.nonce taken = some plain) :
    Differs plain body := by
  have henc := length_encryptMessage lib.aes128 sender.key (by decide) (by decide) sender.nonce body
  have hne : blocks ≠ body.length / blockSize := by
    intro heq
    rw [hblocks, henc, heq] at hlen
    exact hlen rfl
  have hle := htaken.length_le
  rw [List.prefix_iff_eq_take.mp htaken, hblocks] at hdec
  rw [hblocks] at hle
  rcases decryptMessage_of_ne lib.aes128 sender.key (by decide) (by decide) hne hle hdec with
    ⟨hlt, heq⟩ | ⟨hlt, heq⟩
  . refine ⟨by omega, Or.inl ?_⟩
    rw [heq]
    exact List.take_prefix _ _
  . refine ⟨by omega, Or.inr ?_⟩
    rw [← heq]
    exact List.take_prefix _ _

-- `taken` is what the receiver takes for the body of the frame.
theorem recvModified_differs {sender receiver : Modifiers} (hstep : InStep sender receiver)
    {body taken rest tail : List UInt8} {newLen : Nat} (hbody : body ≠ [])
    (htaken : taken <+: sealedBody lib cfg flags sender body ++ rest)
    (hlen : taken.length ≠ (sealedBody lib cfg flags sender body).length)
    (hrc : (recvModified lib cfg flags receiver (hdr ++ taken ++ tail) 0
      (headerLength + taken.length)).rc = .ok newLen)
    (hge : headerLength ≤ newLen) :
    ∃ body' tail', newLen = headerLength + body'.length
      ∧ (recvModified lib cfg flags receiver (hdr ++ taken ++ tail) 0
          (headerLength + taken.length)).buf = hdr ++ body' ++ tail'
      ∧ Differs body' body := by
  have hbody₁ := sequenced_ne_nil cfg flags sender hbody
  have hbody₂ := checked_ne_nil lib cfg flags hbody₁
  rw [buf_recvModified, ← buf_afterChecksum]
  obtain ⟨len₁, hrc₁⟩ := Received.andThen_eq_ok hrc
  obtain ⟨len₂, hrc₂⟩ := Received.andThen_eq_ok hrc₁
  obtain ⟨body₂, tail₂, rfl, hbuf₂, hinv₂⟩ := afterCipher_inv hhdr hrc₂
  have hdiffers₂ : Differs body₂ (checked lib cfg flags (sequenced cfg flags sender body)) := by
    unfold sealedBody ciphered at htaken hlen
    split at hinv₂
    . next henabled =>
      rw [if_pos ⟨henabled, hbody₂⟩] at htaken hlen
      rcases hinv₂ with ⟨-, rfl⟩ | ⟨blocks, hblocks, hdec⟩
      . exact Differs.nil hbody₂
      . rw [hstep.2] at hdec
        exact differs_of_decryptMessage htaken hlen hblocks hdec
    . next henabled =>
      rw [if_neg (fun h => henabled h.1)] at htaken hlen
      rw [hinv₂]
      exact Differs.of_take htaken hlen
  obtain ⟨body₁, tail₁, rfl, hbuf₁, hinv₁⟩ := andThen_recvChecksum_inv hhdr hrc₂ hbuf₂ hrc₁
  have hdiffers₁ : Differs body₁ (sequenced cfg flags sender body) := by
    unfold checked at hdiffers₂
    split at hinv₁
    . next henabled =>
      rw [if_pos ⟨henabled, hbody₁⟩] at hdiffers₂
      rcases hinv₁ with ⟨-, rfl⟩ | ⟨crc, hcrc, rfl⟩
      . exact Differs.nil hbody₁
      . exact hdiffers₂.of_append (hcrc.trans (lib.length_crc32 _).symm)
    . next henabled =>
      rw [if_neg (fun h => henabled h.1)] at hdiffers₂
      rw [hinv₁]
      exact hdiffers₂
  have hbuf₁' := @buf_afterChecksum lib cfg flags receiver (hdr ++ taken ++ tail) 0
    (headerLength + taken.length)
  obtain ⟨body₀, tail₀, rfl, hbuf₀, hinv₀⟩ :=
    andThen_recvSequence_inv hrc₁ (hbuf₁'.trans hbuf₁) hrc hge
  refine ⟨body₀, tail₀, rfl, hbuf₀, ?_⟩
  unfold sequenced at hdiffers₁
  split at hinv₀
  . next henabled =>
    obtain ⟨seq, hseq, rfl⟩ := hinv₀
    rw [if_pos henabled] at hdiffers₁
    exact hdiffers₁.of_append hseq
  . next henabled =>
    rw [if_neg henabled] at hdiffers₁
    rw [hinv₀]
    exact hdiffers₁

end Modifiers

end Lax
