import Lax.Net.BitsProtocol.Lemmas.Modified
import Lax.Util.Botan.Impl.Amalgamation

/-!
This module contains the proof that a receiver undoes what a sender does to a frame, and that both
ends have the same state afterwards.
-/

namespace Lax

open BlockMode

/-!
### The header
-/

def stamp (hdr : List UInt8) (newLen : Nat) : List UInt8 :=
  lengthField newLen ++ hdr.drop 4

theorem updateLengthField_append (hdr body : List UInt8) (newLen : Nat)
    (hhdr : hdr.length = headerLength) :
    updateLengthField (hdr ++ body) 0 newLen = stamp hdr newLen ++ body := by
  have hle : 4 ≤ hdr.length := by
    rw [hhdr]
    decide
  rw [updateLengthField_zero, List.drop_append_of_le_length hle, stamp, List.append_assoc]

theorem length_stamp {hdr : List UInt8} (hhdr : hdr.length = headerLength) (newLen : Nat) :
    (stamp hdr newLen).length = headerLength := by
  unfold stamp
  rw [List.length_append, length_lengthField, List.length_drop, hhdr]
  rfl

-- What a modifier does to the header while it replaces `body` by `body'`.
structure Layer (hdr body hdr' body' : List UInt8) : Prop where
  length_eq : hdr'.length = headerLength
  drop_eq : hdr'.drop 4 = hdr.drop 4
  take_eq : hdr.take 4 = lengthField (headerLength + body.length) →
    hdr'.take 4 = lengthField (headerLength + body'.length)

namespace Layer

variable {hdr body hdr' body' hdr'' body'' : List UInt8}

theorem refl (hhdr : hdr.length = headerLength) : Layer hdr body hdr body :=
  ⟨hhdr, rfl, id⟩

theorem trans (h : Layer hdr body hdr' body') (h' : Layer hdr' body' hdr'' body'') :
    Layer hdr body hdr'' body'' :=
  ⟨h'.length_eq, h'.drop_eq.trans h.drop_eq, fun htake => h'.take_eq (h.take_eq htake)⟩

theorem stamp (hhdr : hdr.length = headerLength) :
    Layer hdr body (stamp hdr (headerLength + body'.length)) body' := by
  have hlen := length_lengthField (headerLength + body'.length)
  refine ⟨length_stamp hhdr _, ?_, ?_⟩
  . unfold Lax.stamp
    exact List.drop_left' hlen
  . intro _
    unfold Lax.stamp
    exact List.take_left' hlen

end Layer

namespace Modifiers

variable (lib : Botan) (cfg : Config) (flags : Flags)

/-!
### Sending
-/

def sequenced (mods : Modifiers) (body : List UInt8) : List UInt8 :=
  if cfg.enableSequence && flags.enableSequence then body ++ [mods.sequencer.sendSeq] else body

def checked (body : List UInt8) : List UInt8 :=
  if (cfg.enableChecksum && flags.enableChecksum) ∧ body ≠ [] then body ++ lib.crc32 body else body

def ciphered (sender : CipherImpl) (body : List UInt8) : List UInt8 :=
  if (cfg.enableCipher && flags.enableCipher) ∧ body ≠ [] then
    encryptMessage lib.aes128 sender.key sender.nonce body
  else
    body

def cipheredState (sender : CipherImpl) (body : List UInt8) : CipherImpl :=
  if (cfg.enableCipher && flags.enableCipher) ∧ body ≠ [] then
    sender.advance lib cfg body
  else
    sender

def sequencedState (mods : Modifiers) : Modifiers :=
  if cfg.enableSequence && flags.enableSequence then
    mods.withSequencer { mods.sequencer with sendSeq := mods.sequencer.sendSeq + 1 }
  else
    mods

-- The body of a frame and the state of its sender, in terms of the body of the message.
def sealedBody (mods : Modifiers) (body : List UInt8) : List UInt8 :=
  ciphered lib cfg flags mods.cipher.sender (checked lib cfg flags (sequenced cfg flags mods body))

def sealedState (mods : Modifiers) (body : List UInt8) : Modifiers :=
  (sequencedState cfg flags mods).withSender
    (cipheredState lib cfg flags mods.cipher.sender
      (checked lib cfg flags (sequenced cfg flags mods body)))

theorem sequenced_eq_append (mods : Modifiers) (body : List UInt8) :
    ∃ more, sequenced cfg flags mods body = body ++ more := by
  unfold sequenced
  split
  . exact ⟨_, rfl⟩
  . exact ⟨[], by rw [List.append_nil]⟩

theorem checked_eq_append (body : List UInt8) :
    ∃ more, checked lib cfg flags body = body ++ more := by
  unfold checked
  split
  . exact ⟨_, rfl⟩
  . exact ⟨[], by rw [List.append_nil]⟩

theorem sequenced_ne_nil (mods : Modifiers) {body : List UInt8} (h : body ≠ []) :
    sequenced cfg flags mods body ≠ [] := by
  obtain ⟨more, hmore⟩ := sequenced_eq_append cfg flags mods body
  rw [hmore]
  exact List.append_ne_nil_of_left_ne_nil h more

theorem checked_ne_nil {body : List UInt8} (h : body ≠ []) : checked lib cfg flags body ≠ [] := by
  obtain ⟨more, hmore⟩ := checked_eq_append lib cfg flags body
  rw [hmore]
  exact List.append_ne_nil_of_left_ne_nil h more

theorem length_sequenced (mods : Modifiers) (body : List UInt8) :
    (sequenced cfg flags mods body).length
      =
    if cfg.enableSequence && flags.enableSequence then body.length + sequenceSize else body.length := by
  unfold sequenced
  split
  . exact List.length_append
  . rfl

theorem length_checked {body : List UInt8} (h : body ≠ []) :
    (checked lib cfg flags body).length
      =
    if cfg.enableChecksum && flags.enableChecksum then body.length + checksumSize else body.length := by
  unfold checked
  simp only [h, ne_eq, not_false_eq_true, and_true]
  split
  . rw [List.length_append, lib.length_crc32]
  . rfl

theorem length_ciphered (sender : CipherImpl) {body : List UInt8} (h : body ≠ []) :
    (ciphered lib cfg flags sender body).length
      =
    if cfg.enableCipher && flags.enableCipher then
      body.length + Cipher.padSize body.length
    else
      body.length := by
  unfold ciphered
  simp only [h, ne_eq, not_false_eq_true, and_true]
  split
  . rw [length_encryptMessage lib.aes128 _ (by decide) (by decide), Cipher.add_padSize]
  . rfl

variable {cfg flags} in
theorem sealed_of_not_needsToModify (h : needsToModify cfg flags = false) (mods : Modifiers)
    (body : List UInt8) :
    sealedBody lib cfg flags mods body = body ∧ sealedState lib cfg flags mods body = mods := by
  simp only [needsToModify, Bool.or_eq_false_iff] at h
  obtain ⟨⟨hcipher, hchecksum⟩, hsequence⟩ := h
  constructor
  . simp only [sealedBody, ciphered, checked, sequenced, hcipher, hchecksum, hsequence,
      Bool.false_eq_true, false_and, ↓reduceIte]
  . simp only [sealedState, cipheredState, sequencedState, hcipher, hsequence, Bool.false_eq_true,
      false_and, ↓reduceIte]
    rfl

variable {lib cfg flags} {hdr : List UInt8} (hhdr : hdr.length = headerLength)

include hhdr

theorem sendSequence_append (mods : Modifiers) (body : List UInt8) :
    ∃ hdr', Layer hdr body hdr' (sequenced cfg flags mods body)
      ∧ sendSequence cfg flags mods (hdr ++ body)
        = (hdr' ++ sequenced cfg flags mods body, sequencedState cfg flags mods) := by
  unfold sendSequence sequenced sequencedState
  cases cfg.enableSequence && flags.enableSequence with
  | false => exact ⟨hdr, Layer.refl hhdr, rfl⟩
  | true =>
    refine ⟨_, Layer.stamp hhdr, ?_⟩
    have hlen : (hdr ++ body).length + 1
        = headerLength + (body ++ [mods.sequencer.sendSeq]).length := by
      simp only [List.length_append, List.length_singleton, hhdr]
      omega
    simp only [↓reduceIte]
    rw [Sequencer.onSend_eq, hlen, List.append_assoc, updateLengthField_append _ _ _ hhdr]

theorem sendChecksum_append (body : List UInt8) :
    ∃ hdr', Layer hdr body hdr' (checked lib cfg flags body)
      ∧ sendChecksum lib cfg flags (hdr ++ body) = hdr' ++ checked lib cfg flags body := by
  unfold sendChecksum checked
  cases cfg.enableChecksum && flags.enableChecksum with
  | false => exact ⟨hdr, Layer.refl hhdr, by simp⟩
  | true =>
    simp only [↓reduceIte, true_and]
    rw [Checksum.onSend_eq lib hdr body hhdr]
    by_cases hbody : body = []
    . rw [if_pos hbody, if_neg (by simpa using hbody)]
      exact ⟨hdr, Layer.refl hhdr, rfl⟩
    . rw [if_neg hbody, if_pos hbody]
      refine ⟨_, Layer.stamp hhdr, ?_⟩
      have hlen : (hdr ++ body).length + checksumSize
          = headerLength + (body ++ lib.crc32 body).length := by
        simp only [List.length_append, hhdr, lib.length_crc32]
        omega
      rw [hlen, List.append_assoc, updateLengthField_append _ _ _ hhdr]

theorem sendCipher_append (mods : Modifiers) (body : List UInt8) :
    ∃ hdr', Layer hdr body hdr' (ciphered lib cfg flags mods.cipher.sender body)
      ∧ sendCipher lib cfg flags mods (hdr ++ body)
        = (hdr' ++ ciphered lib cfg flags mods.cipher.sender body,
            mods.withSender (cipheredState lib cfg flags mods.cipher.sender body)) := by
  unfold sendCipher ciphered cipheredState
  cases cfg.enableCipher && flags.enableCipher with
  | false => exact ⟨hdr, Layer.refl hhdr, by simp [withSender]⟩
  | true =>
    simp only [↓reduceIte, true_and]
    rw [Cipher.onSend_eq lib cfg _ hdr body hhdr]
    by_cases hbody : body = []
    . rw [if_pos hbody, if_neg (by simpa using hbody), if_neg (by simpa using hbody)]
      exact ⟨hdr, Layer.refl hhdr, rfl⟩
    . rw [if_neg hbody, if_pos hbody, if_pos hbody]
      refine ⟨_, Layer.stamp hhdr, ?_⟩
      rw [updateLengthField_append _ _ _ hhdr]

theorem sendModified_append (mods : Modifiers) (body : List UInt8) :
    ∃ hdr', Layer hdr body hdr' (sealedBody lib cfg flags mods body)
      ∧ sendModified lib cfg flags mods (hdr ++ body)
        = (hdr' ++ sealedBody lib cfg flags mods body, sealedState lib cfg flags mods body) := by
  obtain ⟨hdr₁, hlayer₁, heq₁⟩ := @sendSequence_append cfg flags _ hhdr mods body
  obtain ⟨hdr₂, hlayer₂, heq₂⟩ :=
    @sendChecksum_append lib cfg flags _ hlayer₁.length_eq (sequenced cfg flags mods body)
  obtain ⟨hdr₃, hlayer₃, heq₃⟩ :=
    @sendCipher_append lib cfg flags _ hlayer₂.length_eq (sequencedState cfg flags mods)
      (checked lib cfg flags (sequenced cfg flags mods body))
  have hcipher : (sequencedState cfg flags mods).cipher = mods.cipher := by
    unfold sequencedState
    split <;> rfl
  rw [hcipher] at hlayer₃ heq₃
  refine ⟨hdr₃, (hlayer₁.trans hlayer₂).trans hlayer₃, ?_⟩
  unfold sendModified
  rw [heq₁]
  dsimp only
  rw [heq₂, heq₃]
  rfl

/-!
### Receiving
-/

theorem recvSequence_append (mods : Modifiers) (body tail : List UInt8) :
    let r := recvSequence mods (hdr ++ (body ++ [mods.sequencer.recvSeq]) ++ tail) 0
      (headerLength + (body.length + 1))
    r.rc = .ok (headerLength + body.length)
      ∧ r.state = mods.withSequencer
        { mods.sequencer with recvSeq := mods.sequencer.recvSeq + 1 } := by
  have hlen : headerLength + (body.length + 1) = (hdr ++ body).length + 1 := by
    rw [List.length_append, hhdr, Nat.add_assoc]
  have hembed := mods.sequencer.onRecv_embed [] (hdr ++ body ++ [mods.sequencer.recvSeq]) tail
    (headerLength + (body.length + 1)) (by omega)
    (by simp only [List.length_append, List.length_singleton, hhdr]; omega)
  unfold recvSequence
  rw [List.nil_append, List.length_nil] at hembed
  rw [← List.append_assoc, hembed, hlen, Sequencer.onRecv_append, if_pos rfl, List.length_append,
    hhdr]
  exact ⟨rfl, rfl⟩

theorem recvChecksum_append (mods : Modifiers) (body tail : List UInt8) :
    let r := recvChecksum lib mods (hdr ++ (body ++ lib.crc32 body) ++ tail) 0
      (headerLength + (body.length + checksumSize))
    r.rc = .ok (headerLength + body.length) ∧ r.state = mods := by
  have hembed := Checksum.onRecv_embed lib [] (hdr ++ body ++ lib.crc32 body) tail
    (headerLength + body.length + checksumSize)
    (by simp only [List.length_append, hhdr, lib.length_crc32]; omega)
  unfold recvChecksum
  rw [List.nil_append, List.length_nil] at hembed
  rw [← List.append_assoc, ← Nat.add_assoc, hembed]
  refine ⟨?_, rfl⟩
  rw [Received.rc_map, Received.rc_embed,
    Checksum.onRecv_append lib hdr body _ hhdr (lib.length_crc32 body), if_pos rfl]

theorem recvCipher_append (mods : Modifiers) (body : List UInt8) :
    let cipherText := encryptMessage lib.aes128 mods.cipher.receiver.key mods.cipher.receiver.nonce body
    let r := recvCipher lib cfg mods (hdr ++ cipherText) 0 (headerLength + cipherText.length)
    r.rc = .ok (headerLength + body.length)
      ∧ r.state = mods.withReceiver (mods.cipher.receiver.advance lib cfg body)
      ∧ ∃ tail, r.buf = hdr ++ body ++ tail := by
  intro cipherText r
  have hlen : cipherText.length = (body.length / blockSize + 1) * blockSize :=
    length_encryptMessage lib.aes128 _ (by decide) (by decide) _ body
  have hdec := decryptMessage_encryptMessage lib.aes128 mods.cipher.receiver.key (by decide)
    (by decide) mods.cipher.receiver.nonce body
  obtain ⟨hsome, -⟩ := Cipher.onRecv_append lib cfg mods.cipher.receiver hdr cipherText _ hhdr hlen
  obtain ⟨hrc, hbuf, hstate⟩ := hsome body hdec
  exact ⟨hrc, congrArg mods.withReceiver hstate, _, hbuf⟩

/-!
### Both ends
-/

-- The state that the receiver shares with the sender.
def InStep (sender receiver : Modifiers) : Prop :=
  receiver.sequencer.recvSeq = sender.sequencer.sendSeq
    ∧ receiver.cipher.receiver = sender.cipher.sender

omit hhdr in
theorem inStep_onBind : InStep onBind onBind := ⟨rfl, rfl⟩

theorem afterCipher_ciphered {sender receiver : Modifiers} (hstep : InStep sender receiver)
    (body : List UInt8) :
    let cipherText := ciphered lib cfg flags sender.cipher.sender body
    let r := afterCipher lib cfg flags receiver (hdr ++ cipherText) 0
      (headerLength + cipherText.length)
    r.rc = .ok (headerLength + body.length)
      ∧ r.state
        = receiver.withReceiver (cipheredState lib cfg flags sender.cipher.sender body)
      ∧ ∃ tail, r.buf = hdr ++ body ++ tail := by
  have hstart : ∀ body : List UInt8, ∃ tail, hdr ++ body = hdr ++ body ++ tail := by
    intro body
    exact ⟨[], by rw [List.append_nil]⟩
  have hkeep : receiver.withReceiver sender.cipher.sender = receiver := by
    rw [← hstep.2]
    rfl
  unfold afterCipher ciphered cipheredState
  cases cfg.enableCipher && flags.enableCipher with
  | false =>
    simp only [Bool.false_eq_true, false_and, ↓reduceIte]
    rw [Received.andThen_false, hkeep]
    exact ⟨rfl, rfl, hstart body⟩
  | true =>
    simp only [true_and]
    rw [Received.andThen_true rfl]
    by_cases hbody : body = []
    . subst hbody
      simp only [ne_eq, not_true, ↓reduceIte, List.length_nil]
      have hheader := Cipher.onRecv_header lib cfg receiver.cipher.receiver (hdr ++ []) 0
      unfold recvCipher
      dsimp only [Received.start]
      rw [Nat.add_zero, hheader, hkeep]
      exact ⟨rfl, rfl, hstart []⟩
    . rw [if_pos hbody, if_pos hbody, ← hstep.2]
      exact recvCipher_append hhdr receiver body

theorem andThen_checked {r : Received Modifiers} {body tail : List UInt8}
    (hrc : r.rc = .ok (headerLength + (checked lib cfg flags body).length))
    (hbuf : r.buf = hdr ++ checked lib cfg flags body ++ tail) :
    let r' := r.andThen (cfg.enableChecksum && flags.enableChecksum)
      fun buf mods msgLen => recvChecksum lib mods buf 0 msgLen
    r'.rc = .ok (headerLength + body.length) ∧ r'.state = r.state := by
  unfold checked at hrc hbuf
  cases henabled : cfg.enableChecksum && flags.enableChecksum with
  | false =>
    simp only [henabled, Bool.false_eq_true, false_and, ↓reduceIte] at hrc
    rw [Received.andThen_false]
    exact ⟨hrc, rfl⟩
  | true =>
    simp only [henabled, true_and] at hrc hbuf
    rw [Received.andThen_true hrc]
    by_cases hbody : body = []
    . subst hbody
      unfold recvChecksum
      dsimp only
      rw [if_neg (by simp), List.length_nil, Nat.add_zero, Checksum.onRecv_of_eq]
      exact ⟨rfl, rfl⟩
    . rw [if_pos hbody] at hbuf
      dsimp only
      rw [if_pos hbody, hbuf, List.length_append, lib.length_crc32]
      exact recvChecksum_append hhdr r.state body tail

theorem andThen_sequenced {r : Received Modifiers} {sender : Modifiers} {body tail : List UInt8}
    (hseq : r.state.sequencer.recvSeq = sender.sequencer.sendSeq)
    (hrc : r.rc = .ok (headerLength + (sequenced cfg flags sender body).length))
    (hbuf : r.buf = hdr ++ sequenced cfg flags sender body ++ tail) :
    let r' := r.andThen (cfg.enableSequence && flags.enableSequence)
      fun buf mods msgLen => recvSequence mods buf 0 msgLen
    r'.rc = .ok (headerLength + body.length)
      ∧ r'.state.sequencer.recvSeq = (sequencedState cfg flags sender).sequencer.sendSeq
      ∧ r'.state.cipher = r.state.cipher := by
  unfold sequenced at hrc hbuf
  unfold sequencedState
  cases henabled : cfg.enableSequence && flags.enableSequence with
  | false =>
    simp only [henabled, Bool.false_eq_true, ↓reduceIte] at hrc
    rw [Received.andThen_false]
    exact ⟨hrc, hseq, rfl⟩
  | true =>
    simp only [henabled, ↓reduceIte, List.length_append, List.length_singleton] at hrc hbuf
    obtain ⟨hrc', hstate⟩ := recvSequence_append hhdr r.state body tail
    rw [Received.andThen_true hrc]
    dsimp only
    rw [hbuf, ← hseq, hrc', hstate]
    exact ⟨rfl, rfl, rfl⟩

theorem recvModified_sealed {sender receiver : Modifiers} (hstep : InStep sender receiver)
    (body : List UInt8) :
    let frame := hdr ++ sealedBody lib cfg flags sender body
    let r := recvModified lib cfg flags receiver frame 0 frame.length
    r.rc = .ok (headerLength + body.length)
      ∧ InStep (sealedState lib cfg flags sender body) r.state
      ∧ ∃ tail, r.buf = hdr ++ body ++ tail := by
  intro frame r
  have hlen : frame.length = headerLength + (sealedBody lib cfg flags sender body).length := by
    rw [List.length_append, hhdr]
  obtain ⟨hrc₁, hstate₁, tail₁, hbuf₁⟩ := @afterCipher_ciphered lib cfg flags _ hhdr _ _ hstep
    (checked lib cfg flags (sequenced cfg flags sender body))
  obtain ⟨hrc₂, hstate₂⟩ := andThen_checked hhdr hrc₁ hbuf₁
  obtain ⟨crc, hcrc⟩ := checked_eq_append lib cfg flags (sequenced cfg flags sender body)
  obtain ⟨seq, hseq⟩ := sequenced_eq_append cfg flags sender body
  have hbuf₂ : (afterChecksum lib cfg flags receiver frame 0 frame.length).buf
      = hdr ++ sequenced cfg flags sender body ++ (crc ++ tail₁) := by
    rw [buf_afterChecksum, hlen]
    refine hbuf₁.trans ?_
    rw [hcrc]
    simp only [List.append_assoc]
  have hseq₂ : (afterChecksum lib cfg flags receiver frame 0 frame.length).state.sequencer.recvSeq
      = sender.sequencer.sendSeq := by
    rw [hlen]
    refine (congrArg (fun mods => mods.sequencer.recvSeq) (hstate₂.trans hstate₁)).trans ?_
    exact hstep.1
  have hrc₂' : (afterChecksum lib cfg flags receiver frame 0 frame.length).rc
      = .ok (headerLength + (sequenced cfg flags sender body).length) := by
    rw [hlen]
    exact hrc₂
  have hcipher₂ : (afterChecksum lib cfg flags receiver frame 0 frame.length).state.cipher.receiver
      = (sealedState lib cfg flags sender body).cipher.sender := by
    rw [hlen]
    exact congrArg (fun mods => mods.cipher.receiver) (hstate₂.trans hstate₁)
  obtain ⟨hrc₃, hseq₃, hcipher₃⟩ := andThen_sequenced hhdr hseq₂ hrc₂' hbuf₂
  refine ⟨hrc₃, ⟨hseq₃, ?_⟩, seq ++ (crc ++ tail₁), ?_⟩
  . exact (congrArg Cipher.receiver hcipher₃).trans hcipher₂
  . refine (buf_recvModified receiver frame 0 frame.length).trans ?_
    rw [← buf_afterChecksum, hbuf₂, hseq]
    simp only [List.append_assoc]

omit hhdr

/-!
### Runs
-/

structure Transfer where
  msg : List UInt8
  flags : Flags
  before : List UInt8
  after : List UInt8
  headerLength_le : headerLength ≤ msg.length

structure Exchanged where
  transfer : Transfer
  frame : List UInt8
  sender : Modifiers
  received : Received Modifiers

variable (lib cfg) in
def exchange (sender receiver : Modifiers) : List Transfer → List Exchanged
  | [] => []
  | t :: ts =>
    let (frame, sender) := sendModified lib cfg t.flags sender t.msg
    let received := recvModified lib cfg t.flags receiver (t.before ++ frame ++ t.after)
      t.before.length frame.length
    ⟨t, frame, sender, received⟩ :: exchange sender received.state ts

namespace Exchanged

structure Delivered (e : Exchanged) : Prop where
  rc : e.received.rc = .ok e.transfer.msg.length
  payload : Slice.read e.received.buf (e.transfer.before.length + headerLength)
    (e.transfer.msg.length - headerLength) = e.transfer.msg.drop headerLength
  outside : ∃ frame', frame'.length = e.frame.length
    ∧ e.received.buf = e.transfer.before ++ frame' ++ e.transfer.after
  inStep : InStep e.sender e.received.state

end Exchanged

theorem delivered_of_inStep {sender receiver : Modifiers} (hstep : InStep sender receiver)
    (t : Transfer) :
    let (frame, sender') := sendModified lib cfg t.flags sender t.msg
    Exchanged.Delivered
      ⟨
        t, frame, sender',
        recvModified lib cfg t.flags receiver (t.before ++ frame ++ t.after) t.before.length
          frame.length
      ⟩ := by
  have hhdr : (t.msg.take headerLength).length = headerLength := by
    rw [List.length_take, Nat.min_eq_left t.headerLength_le]
  have hmsg : headerLength + (t.msg.drop headerLength).length = t.msg.length := by
    have := t.headerLength_le
    rw [List.length_drop]
    omega
  obtain ⟨hdr, hlayer, heq⟩ := @sendModified_append lib cfg t.flags _ hhdr sender
    (t.msg.drop headerLength)
  have hhdr' := hlayer.length_eq
  obtain ⟨hrc, hstep', tail, hbuf⟩ := @recvModified_sealed lib cfg t.flags _ hhdr' _ _ hstep
    (t.msg.drop headerLength)
  rw [List.take_append_drop] at heq
  rw [heq]
  dsimp only
  have hpos : 0 < (hdr ++ sealedBody lib cfg t.flags sender (t.msg.drop headerLength)).length := by
    rw [List.length_append, hhdr']
    exact Nat.lt_of_lt_of_le (by decide) (Nat.le_add_right _ _)
  generalize hdr ++ sealedBody lib cfg t.flags sender (t.msg.drop headerLength) = frame at *
  have hlen := @length_buf_recvModified lib cfg t.flags receiver frame 0 frame.length
    (show InRange frame 0 frame.length from Nat.le_of_eq (Nat.zero_add _))
  rw [recvModified_embed receiver t.before frame t.after frame.length (fun _ => hpos) (Nat.le_refl _)]
  refine ⟨?_, ?_, ⟨_, hlen, rfl⟩, hstep'⟩
  . rw [Received.rc_embed, hrc, hmsg]
  . have hread := Slice.read_middle t.before (hdr ++ t.msg.drop headerLength ++ tail) t.after
      headerLength (t.msg.length - headerLength)
      (by simp only [List.length_append, hhdr']; omega)
    have hread' := read_body hhdr' (t.msg.drop headerLength) tail
      (Nat.le_of_eq (List.length_drop (i := headerLength) (l := t.msg)).symm)
    dsimp only [Received.buf_embed]
    rw [hbuf, hread, hread', List.take_of_length_le (by omega)]

theorem delivered_of_mem_exchange {sender receiver : Modifiers} (hstep : InStep sender receiver)
    (ts : List Transfer) : ∀ e ∈ exchange lib cfg sender receiver ts, e.Delivered := by
  induction ts generalizing sender receiver with
  | nil =>
    intro e he
    cases he
  | cons t ts ih =>
    have hdelivered := @delivered_of_inStep lib cfg _ _ hstep t
    intro e he
    unfold exchange at he
    dsimp only at hdelivered he
    cases he with
    | head => exact hdelivered
    | tail _ he => exact ih hdelivered.inStep e he

/--
The receiver gets back every message that the sender has modified, and its modifiers stay in step.
-/
theorem lockstep (lib : Botan) (cfg : Config) (ts : List Transfer) :
    ∀ e ∈ exchange lib cfg onBind onBind ts, e.Delivered :=
  delivered_of_mem_exchange inStep_onBind ts

theorem lockstep_amalgamation :
    let ts : List Transfer := [
      ⟨[9, 0, 0, 0, 1, 0, 0, 0, 7], ⟨true, true, true⟩, [1, 2], [3], by decide⟩,
      ⟨[10, 0, 0, 0, 1, 0, 0, 0, 7, 8], ⟨true, true, true⟩, [], [4, 5], by decide⟩
    ]
    let es := exchange (Botan.amalgamation 64) {} onBind onBind ts
    es.map (·.transfer) = ts ∧ ∀ e ∈ es, e.Delivered := by
  intro ts es
  exact ⟨rfl, lockstep (Botan.amalgamation 64) {} ts⟩

end Modifiers
end Lax
