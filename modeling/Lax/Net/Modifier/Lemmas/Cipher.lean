import Lax.Net.Modifier.Impl.Cipher
import Lax.Net.Modifier.Lemmas.Basic

namespace Lax

open BlockMode

namespace CipherImpl

variable (lib : Botan) (cfg : Config)

def advance (c : CipherImpl) (msg : List UInt8) : CipherImpl :=
  complete cfg { c with data := lib.sha1 (msg.take 64 ++ c.data) }

theorem updateHash_of_read (c : CipherImpl) {buf msg : List UInt8} {pos : Nat}
    (h : Slice.read buf pos (min msg.length 64) = msg.take 64) :
    c.updateHash lib buf pos msg.length = { c with data := lib.sha1 (msg.take 64 ++ c.data) } := by
  unfold updateHash
  rw [h]

end CipherImpl

namespace Cipher

variable (lib : Botan) (cfg : Config) (receiver sender : CipherImpl)

/-!
### Receiving
-/

theorem onRecv_header (buf : List UInt8) (msgPos : Nat) :
    onRecv lib cfg receiver buf msgPos headerLength
      =
    ⟨.ok headerLength, buf, receiver, [.subtract headerLength headerLength]⟩ := by
  unfold onRecv
  simp [sizeSub]

theorem onRecv_of_misaligned (buf : List UInt8) (msgPos msgLen : Nat)
    (h : msgLen < headerLength ∨ (msgLen - headerLength) % blockSize ≠ 0) :
    onRecv lib cfg receiver buf msgPos msgLen
      =
    ⟨
      .error .exception, buf, receiver,
      [.subtract msgLen headerLength, .subtract (sizeSub msgLen headerLength) blockSize]
    ⟩ := by
  simp only [headerLength, blockSize] at h
  have hcipher : sizeSub msgLen headerLength ≠ 0 := by
    simp only [sizeSub, headerLength]
    split <;> omega
  have hprocess : sizeSub (sizeSub msgLen headerLength) blockSize % blockSize ≠ 0 := by
    simp only [sizeSub, headerLength, blockSize]
    split <;> split <;> omega
  unfold onRecv
  dsimp only
  rw [if_neg hcipher, if_pos hprocess]
  rfl

-- The call on `blocks + 1` whole blocks behind the header, in terms of the whole message.
def recvBlocks (buf : List UInt8) (msgPos blocks : Nat) : Received CipherImpl :=
  let cipherPos := msgPos + headerLength
  let cipherLen := (blocks + 1) * blockSize
  let msgLen := headerLength + cipherLen
  let finalPos := cipherPos + blocks * blockSize
  let input := Slice.read buf cipherPos cipherLen
  let decrypted :=
    [
      Event.subtract msgLen headerLength, .subtract cipherLen blockSize,
      .access cipherPos (blocks * blockSize), .access finalPos blockSize
    ]
  match decryptMessage lib.aes128 receiver.key receiver.nonce input with
  | none =>
    let plain := (decryptProcess lib.aes128 receiver.key blocks receiver.nonce input).1
    ⟨.error .exception, Slice.write buf cipherPos plain, receiver, decrypted⟩
  | some plain =>
    let padSize := cipherLen - plain.length
    ⟨
      .ok (headerLength + plain.length), Slice.write buf cipherPos plain,
      receiver.advance lib cfg plain,
      decrypted ++
        [
          .access finalPos (blockSize - padSize),
          .subtract blockSize (blockSize - padSize),
          .subtract cipherLen padSize,
          .access cipherPos (min plain.length 64),
          .subtract msgLen padSize
        ]
    ⟩

theorem onRecv_eq_recvBlocks (buf : List UInt8) (msgPos blocks : Nat)
    (h : InRange buf (msgPos + headerLength) ((blocks + 1) * blockSize)) :
    onRecv lib cfg receiver buf msgPos (headerLength + (blocks + 1) * blockSize)
      =
    recvBlocks lib cfg receiver buf msgPos blocks := by
  have hrange : msgPos + headerLength + (blocks + 1) * blockSize ≤ buf.length := h
  have hsucc : (blocks + 1) * blockSize = blocks * blockSize + blockSize := Nat.succ_mul _ _
  have hblock : blockSize = 16 := rfl
  have hcipher : sizeSub (headerLength + (blocks + 1) * blockSize) headerLength
      = (blocks + 1) * blockSize := by
    rw [sizeSub_of_le (by omega)]
    omega
  have hprocess : sizeSub ((blocks + 1) * blockSize) blockSize = blocks * blockSize := by
    rw [sizeSub_of_le (by omega)]
    omega
  have hread := Slice.read_add buf (msgPos + headerLength) (blocks * blockSize) blockSize
  have hlen := Slice.length_read buf (msgPos + headerLength) (blocks * blockSize) (by omega)
  have hfinal := Slice.length_read buf (msgPos + headerLength + blocks * blockSize) blockSize
    (by omega)
  have hinput : (Slice.read buf (msgPos + headerLength) ((blocks + 1) * blockSize)).length
      = (blocks + 1) * blockSize := Slice.length_read _ _ _ (by omega)
  have hproc := decryptProcess_append lib.aes128 receiver.key blocks receiver.nonce
    (Slice.read buf (msgPos + headerLength) (blocks * blockSize))
    (Slice.read buf (msgPos + headerLength + blocks * blockSize) blockSize) (by omega)
  have hplain := length_decryptProcess lib.aes128 receiver.key blocks receiver.nonce
    (Slice.read buf (msgPos + headerLength) (blocks * blockSize)) (by omega)
  unfold onRecv recvBlocks decryptMessage
  dsimp only
  rw [hcipher, hprocess, if_neg (by omega), if_neg (by simp), if_neg (· h),
    length_div_sub_one (by omega) hinput, Nat.mul_div_cancel _ (by omega)]
  rw [hsucc, hread, hproc, List.drop_left' hlen, ← hsucc]
  generalize decryptProcess lib.aes128 receiver.key blocks receiver.nonce
    (Slice.read buf (msgPos + headerLength) (blocks * blockSize)) = process at hplain
  have hlast := Slice.read_write_right buf process.1 (msgPos + headerLength) blockSize (by omega)
  rw [hplain] at hlast
  rw [hlast]
  generalize Slice.read buf (msgPos + headerLength + blocks * blockSize) blockSize = final at hfinal
  cases hdec : decryptFinish lib.aes128 receiver.key process.2 final with
  | none => rfl
  | some last =>
    have hlt := length_decryptFinish lib.aes128 receiver.key hfinal hdec
    have hpad : sizeSub blockSize last.length = blockSize - last.length := sizeSub_of_le (by omega)
    have hpad' : (blocks + 1) * blockSize - (process.1 ++ last).length
        = blockSize - last.length := by
      rw [List.length_append]
      omega
    have hhash : sizeSub ((blocks + 1) * blockSize) (blockSize - last.length)
        = (process.1 ++ last).length := by
      rw [sizeSub_of_le (by omega), List.length_append]
      omega
    have hrc : sizeSub (headerLength + (blocks + 1) * blockSize) (blockSize - last.length)
        = headerLength + (process.1 ++ last).length := by
      rw [sizeSub_of_le (by omega), List.length_append]
      omega
    have hwrite := Slice.write_write buf process.1 last (msgPos + headerLength) (by omega)
    rw [hplain] at hwrite
    have hadvance : ((receiver.updateHash lib
        (Slice.write buf (msgPos + headerLength) (process.1 ++ last)) (msgPos + headerLength)
        (process.1 ++ last).length).complete cfg)
          = receiver.advance lib cfg (process.1 ++ last) := by
      rw [CipherImpl.updateHash_of_read, CipherImpl.advance]
      rw [Slice.read_write_take _ _ _ _ (by omega) (Nat.min_le_left _ _), Nat.min_comm,
        ← List.take_take, List.take_length]
    dsimp only [Option.map_some]
    rw [hpad, hpad', hhash, hrc, hwrite, hadvance, Nat.sub_sub_self (by omega)]
    rfl

-- A frame is too short, no whole number of blocks, nothing but a header, or `recvBlocks` applies.
theorem misaligned_or_blocks (msgLen : Nat) :
    (msgLen < headerLength ∨ (msgLen - headerLength) % blockSize ≠ 0)
      ∨ msgLen = headerLength
      ∨ ∃ blocks, msgLen = headerLength + (blocks + 1) * blockSize := by
  by_cases hlt : msgLen < headerLength
  . exact Or.inl (Or.inl hlt)
  . by_cases hmod : (msgLen - headerLength) % blockSize = 0
    . right
      have hdiv := Nat.div_add_mod' (msgLen - headerLength) blockSize
      cases hblocks : (msgLen - headerLength) / blockSize with
      | zero =>
        rw [hblocks] at hdiv
        left
        omega
      | succ blocks =>
        rw [hblocks] at hdiv
        right
        exact ⟨blocks, by omega⟩
    . exact Or.inl (Or.inr hmod)

theorem recvBlocks_embed (pre mid post : List UInt8) (blocks : Nat)
    (hle : headerLength + (blocks + 1) * blockSize ≤ mid.length) :
    recvBlocks lib cfg receiver (pre ++ mid ++ post) pre.length blocks
      =
    (recvBlocks lib cfg receiver mid 0 blocks).embed pre post := by
  have hsucc : (blocks + 1) * blockSize = blocks * blockSize + blockSize := Nat.succ_mul _ _
  have hread : Slice.read (pre ++ mid ++ post) (pre.length + headerLength) ((blocks + 1) * blockSize)
      = Slice.read mid headerLength ((blocks + 1) * blockSize) := by
    apply Slice.read_middle
    exact hle
  have hinput := Slice.length_read mid headerLength ((blocks + 1) * blockSize) hle
  have hprocess := length_decryptProcess lib.aes128 receiver.key blocks receiver.nonce
    (Slice.read mid headerLength ((blocks + 1) * blockSize)) (by omega)
  unfold recvBlocks
  dsimp only
  rw [Nat.zero_add, hread]
  cases hdec : decryptMessage lib.aes128 receiver.key receiver.nonce
      (Slice.read mid headerLength ((blocks + 1) * blockSize)) with
  | none =>
    dsimp only
    rw [Slice.write_middle _ _ _ _ _ (by omega)]
    simp [Received.embed, Event.shift, Nat.add_assoc]
  | some plain =>
    obtain ⟨-, -, hlt⟩ := decryptMessage_eq_take lib.aes128 receiver.key (by decide) hinput hdec
    dsimp only
    rw [Slice.write_middle _ _ _ _ _ (by omega)]
    simp [Received.embed, Event.shift, Nat.add_assoc]

theorem onRecv_embed (pre mid post : List UInt8) (msgLen : Nat) (hle : msgLen ≤ mid.length) :
    onRecv lib cfg receiver (pre ++ mid ++ post) pre.length msgLen
      =
    (onRecv lib cfg receiver mid 0 msgLen).embed pre post := by
  rcases misaligned_or_blocks msgLen with hmis | rfl | ⟨blocks, rfl⟩
  . rw [onRecv_of_misaligned _ _ _ _ _ _ hmis, onRecv_of_misaligned _ _ _ _ _ _ hmis]
    rfl
  . rw [onRecv_header, onRecv_header]
    rfl
  . rw [onRecv_eq_recvBlocks, onRecv_eq_recvBlocks, recvBlocks_embed lib cfg receiver _ _ _ _ hle]
    . unfold InRange
      omega
    . unfold InRange
      simp only [List.length_append]
      omega

-- What holds of whole blocks whether they decrypt or not.
theorem onRecv_blocks {buf : List UInt8} {blocks : Nat}
    (hle : headerLength + (blocks + 1) * blockSize ≤ buf.length) :
    let msgLen := headerLength + (blocks + 1) * blockSize
    let r := onRecv lib cfg receiver buf 0 msgLen
    ∃ plain : List UInt8, plain.length < (blocks + 1) * blockSize
      ∧ r.buf = Slice.write buf headerLength plain
      ∧ (∀ newLen, r.rc = .ok newLen → newLen = headerLength + plain.length)
      ∧ ∀ e ∈ r.trace, e.Ok 0 msgLen := by
  have hsucc : (blocks + 1) * blockSize = blocks * blockSize + blockSize := Nat.succ_mul _ _
  have hinput := Slice.length_read buf headerLength ((blocks + 1) * blockSize) hle
  have hprocess := length_decryptProcess lib.aes128 receiver.key blocks receiver.nonce
    (Slice.read buf headerLength ((blocks + 1) * blockSize)) (by omega)
  have hblock : blockSize = 16 := rfl
  dsimp only
  rw [onRecv_eq_recvBlocks _ _ _ _ _ _ (by unfold InRange; omega)]
  unfold recvBlocks
  dsimp only
  rw [Nat.zero_add]
  cases hdec : decryptMessage lib.aes128 receiver.key receiver.nonce
      (Slice.read buf headerLength ((blocks + 1) * blockSize)) with
  | none =>
    refine ⟨_, by omega, rfl, ?_, ?_⟩
    . intro newLen h
      contradiction
    . simp only [List.forall_mem_cons, Event.Ok]
      simp
      omega
  | some plain =>
    obtain ⟨-, hge, hlt⟩ := decryptMessage_eq_take lib.aes128 receiver.key (by decide) hinput hdec
    refine ⟨plain, hlt, rfl, ?_, ?_⟩
    . intro newLen h
      injection h with h
      exact h.symm
    . simp only [List.cons_append, List.nil_append, List.forall_mem_cons, Event.Ok]
      simp
      omega

theorem length_buf_onRecv (buf : List UInt8) (msgLen : Nat) (hle : msgLen ≤ buf.length) :
    (onRecv lib cfg receiver buf 0 msgLen).buf.length = buf.length := by
  rcases misaligned_or_blocks msgLen with hmis | rfl | ⟨blocks, rfl⟩
  . rw [onRecv_of_misaligned _ _ _ _ _ _ hmis]
  . rw [onRecv_header]
  . obtain ⟨plain, hlt, hbuf, -⟩ := onRecv_blocks lib cfg receiver hle
    rw [hbuf]
    exact Slice.length_write _ _ _ (by omega)

theorem onRecv_append (hdr body : List UInt8) (blocks : Nat) (hhdr : hdr.length = headerLength)
    (hbody : body.length = (blocks + 1) * blockSize) :
    (∀ plain, decryptMessage lib.aes128 receiver.key receiver.nonce body = some plain →
      let r := onRecv lib cfg receiver (hdr ++ body) 0 (headerLength + body.length)
      r.rc = .ok (headerLength + plain.length)
        ∧ r.buf = hdr ++ plain ++ body.drop plain.length
        ∧ r.state = receiver.advance lib cfg plain)
    ∧ (decryptMessage lib.aes128 receiver.key receiver.nonce body = none →
      (onRecv lib cfg receiver (hdr ++ body) 0 (headerLength + body.length)).rc
        = .error .exception) := by
  have hread := read_all_body hhdr body
  have hin : InRange (hdr ++ body) (0 + headerLength) ((blocks + 1) * blockSize) := by
    unfold InRange
    simp only [List.length_append]
    omega
  rw [hbody, onRecv_eq_recvBlocks _ _ _ _ _ _ hin]
  unfold recvBlocks
  dsimp only
  rw [Nat.zero_add, ← hbody, hread]
  constructor
  . intro plain hplain
    rw [hplain]
    refine ⟨rfl, ?_, rfl⟩
    dsimp only
    unfold Slice.write
    rw [← hhdr, List.take_left, List.drop_length_add_append]
  . intro hnone
    rw [hnone]

theorem onRecv_eq_ok {hdr body : List UInt8} {newLen : Nat} (hhdr : hdr.length = headerLength)
    (h : (onRecv lib cfg receiver (hdr ++ body) 0 (headerLength + body.length)).rc = .ok newLen) :
    body = [] ∧ newLen = headerLength
      ∨ ∃ plain blocks, body.length = (blocks + 1) * blockSize
        ∧ decryptMessage lib.aes128 receiver.key receiver.nonce body = some plain
        ∧ newLen = headerLength + plain.length
        ∧ (onRecv lib cfg receiver (hdr ++ body) 0 (headerLength + body.length)).buf
          = hdr ++ plain ++ body.drop plain.length := by
  rcases misaligned_or_blocks (headerLength + body.length) with hmis | heq | ⟨blocks, hblocks⟩
  . rw [onRecv_of_misaligned _ _ _ _ _ _ hmis] at h
    contradiction
  . left
    rw [heq, onRecv_header] at h
    injection h with h
    exact ⟨List.length_eq_zero_iff.mp (by omega), h.symm⟩
  . right
    obtain ⟨hsome, hnone⟩ := onRecv_append lib cfg receiver hdr body blocks hhdr (by omega)
    cases hdec : decryptMessage lib.aes128 receiver.key receiver.nonce body with
    | none =>
      rw [hnone hdec] at h
      contradiction
    | some plain =>
      obtain ⟨hrc, hbuf, -⟩ := hsome plain hdec
      rw [hrc] at h
      injection h with h
      exact ⟨plain, blocks, by omega, rfl, h.symm, hbuf⟩

-- What `on_recv` makes of the length of a frame in which the cipher text has whole blocks.
def plainLength (body : List UInt8) : Option Nat :=
  if body = [] then
    some headerLength
  else
    (decryptMessage lib.aes128 receiver.key receiver.nonce body).map (headerLength + ·.length)

theorem onRecv_eq_ok_iff {hdr body : List UInt8} (hhdr : hdr.length = headerLength)
    (hmod : body.length % blockSize = 0) (newLen : Nat) :
    (onRecv lib cfg receiver (hdr ++ body) 0 (headerLength + body.length)).rc = .ok newLen
      ↔ plainLength lib receiver body = some newLen := by
  unfold plainLength
  by_cases hbody : body = []
  . subst hbody
    rw [if_pos rfl, List.length_nil, Nat.add_zero, onRecv_header]
    simp
  . rw [if_neg hbody, Option.map_eq_some_iff]
    have hpos := List.length_pos_iff.mpr hbody
    rcases misaligned_or_blocks (headerLength + body.length) with hmis | heq | ⟨blocks, hblocks⟩
    . rw [Nat.add_sub_cancel_left] at hmis
      omega
    . omega
    . obtain ⟨hsome, -⟩ := onRecv_append lib cfg receiver hdr body blocks hhdr (by omega)
      constructor
      . intro h
        rcases onRecv_eq_ok lib cfg receiver hhdr h with ⟨hnil, -⟩ | ⟨plain, -, -, hdec, hlen, -⟩
        . exact absurd hnil hbody
        . exact ⟨plain, hdec, hlen.symm⟩
      . intro ⟨plain, hdec, hlen⟩
        rw [(hsome plain hdec).1, hlen]

theorem le_of_onRecv_eq_ok {buf : List UInt8} {msgLen newLen : Nat} (hle : msgLen ≤ buf.length)
    (h : (onRecv lib cfg receiver buf 0 msgLen).rc = .ok newLen) :
    headerLength ≤ newLen ∧ newLen ≤ msgLen := by
  rcases misaligned_or_blocks msgLen with hmis | rfl | ⟨blocks, rfl⟩
  . rw [onRecv_of_misaligned _ _ _ _ _ _ hmis] at h
    contradiction
  . rw [onRecv_header] at h
    injection h with h
    omega
  . obtain ⟨plain, hlt, -, hrc, -⟩ := onRecv_blocks lib cfg receiver hle
    have := hrc newLen h
    omega

theorem ok_of_mem_trace {buf : List UInt8} {msgLen : Nat} (hle : msgLen ≤ buf.length)
    (hlen : headerLength ≤ msgLen) (hmod : (msgLen - headerLength) % blockSize = 0) :
    ∀ e ∈ (onRecv lib cfg receiver buf 0 msgLen).trace, e.Ok 0 msgLen := by
  rcases misaligned_or_blocks msgLen with hmis | rfl | ⟨blocks, rfl⟩
  . omega
  . rw [onRecv_header]
    simp [Event.Ok]
  . obtain ⟨plain, -, -, -, htrace⟩ := onRecv_blocks lib cfg receiver hle
    exact htrace

/-!
### Sending
-/

theorem length_pad_take (payloadSize : Nat) :
    (pad.take (padSize payloadSize)).length = padSize payloadSize := by
  have hpad : pad.length = blockSize := rfl
  have hsize : padSize payloadSize ≤ blockSize := Nat.sub_le _ _
  rw [List.length_take]
  omega

theorem add_padSize (payloadSize : Nat) :
    payloadSize + padSize payloadSize = (payloadSize / blockSize + 1) * blockSize := by
  simp only [padSize, blockSize]
  omega

theorem sizeSub_add_padSize (payloadSize : Nat) :
    sizeSub (payloadSize + padSize payloadSize) blockSize = payloadSize / blockSize * blockSize := by
  rw [add_padSize, Nat.succ_mul, sizeSub_of_le (Nat.le_add_left _ _)]
  exact Nat.add_sub_cancel _ _

theorem sizeSub_length_append {hdr body : List UInt8} (hhdr : hdr.length = headerLength) :
    sizeSub (hdr ++ body).length headerLength = body.length := by
  rw [List.length_append, sizeSub_of_le (by omega)]
  omega

theorem encrypt_eq (key nonce hdr body : List UInt8) (hhdr : hdr.length = headerLength) :
    encrypt lib key nonce (hdr ++ body ++ pad.take (padSize body.length)) 0 (hdr ++ body).length
      =
    hdr ++ encryptMessage lib.aes128 key nonce body := by
  have hblock : blockSize = 16 := rfl
  have hpayload := @sizeSub_length_append hdr body hhdr
  have hprocess := sizeSub_add_padSize body.length
  have hmod := Nat.div_add_mod' body.length blockSize
  have hmodlt : body.length % blockSize < blockSize := Nat.mod_lt _ (by decide)
  have hsucc : (body.length / blockSize + 1) * blockSize
      = body.length / blockSize * blockSize + blockSize := Nat.succ_mul _ _
  have hrest : blockSize - padSize body.length = body.length % blockSize := by
    unfold padSize
    omega
  have hbuf : (hdr ++ body ++ pad.take (padSize body.length)).length
      = headerLength + (body.length / blockSize + 1) * blockSize := by
    rw [List.length_append, List.length_append, length_pad_take, ← add_padSize]
    omega
  have hread := read_body hhdr body (pad.take (padSize body.length))
    (Nat.div_mul_le_self body.length blockSize)
  have hlast : Slice.read (hdr ++ body ++ pad.take (padSize body.length))
      (headerLength + body.length / blockSize * blockSize) (body.length % blockSize)
        = body.drop (body.length / blockSize * blockSize) := by
    have := Slice.read_middle hdr body (pad.take (padSize body.length))
      (body.length / blockSize * blockSize) (body.length % blockSize) (by omega)
    rw [hhdr] at this
    rw [this, Slice.read, List.take_of_length_le]
    exact Nat.le_of_eq (length_drop_blocks body)
  have hout := encryptProcess_take lib.aes128 key nonce (Nat.div_mul_le_self body.length blockSize)
  have hlen := length_encryptProcess lib.aes128 key (body.length / blockSize) nonce body (by omega)
  have hfinish := length_encryptFinish lib.aes128 key
    (encryptProcess lib.aes128 key (body.length / blockSize) nonce body).2
    (body.drop (body.length / blockSize * blockSize)) (by rw [length_drop_blocks]; exact hmodlt)
    (by decide)
  unfold encrypt encryptMessage
  dsimp only
  rw [hpayload, hprocess, Nat.zero_add, Nat.mul_div_cancel _ (by decide), hread, hout, hrest]
  generalize encryptProcess lib.aes128 key (body.length / blockSize) nonce body = process at *
  rw [← hlen, Slice.read_write_right _ _ _ _ (by omega), hlen, hlast]
  generalize encryptFinish lib.aes128 key process.2
    (body.drop (body.length / blockSize * blockSize)) = finish at *
  rw [← hlen, Slice.write_write _ _ _ _ (by omega)]
  have hwhole : headerLength + (process.1 ++ finish).length
      = (hdr ++ body ++ pad.take (padSize body.length)).length := by
    rw [hbuf, List.length_append, Nat.succ_mul]
    omega
  unfold Slice.write
  rw [hwhole, List.drop_length, List.append_nil, ← hhdr, List.append_assoc, List.take_left]

theorem startSend_eq (hdr body rest : List UInt8) (hhdr : hdr.length = headerLength) :
    startSend lib sender (hdr ++ body ++ rest) 0 (hdr ++ body).length
      =
    ((sender.key, sender.nonce), { sender with data := lib.sha1 (body.take 64 ++ sender.data) }) := by
  have hread : Slice.read (hdr ++ body ++ rest) headerLength (min body.length 64)
      = body.take 64 := by
    rw [read_body hhdr body rest (Nat.min_le_left _ _), Nat.min_comm, ← List.take_take,
      List.take_length]
  unfold startSend
  rw [sizeSub_length_append hhdr, Nat.zero_add, CipherImpl.updateHash_of_read lib sender hread]

theorem onSend_eq (hdr body : List UInt8) (hhdr : hdr.length = headerLength) :
    onSend lib cfg sender (hdr ++ body) 0 (hdr ++ body).length
      =
    if body = [] then
      (hdr ++ body, sender)
    else
      (updateLengthField (hdr ++ encryptMessage lib.aes128 sender.key sender.nonce body) 0
          (headerLength + (encryptMessage lib.aes128 sender.key sender.nonce body).length),
        sender.advance lib cfg body) := by
  unfold onSend
  dsimp only
  rw [sizeSub_length_append hhdr]
  by_cases hbody : body = []
  . rw [if_pos (by simp [hbody]), if_pos hbody]
  . have hpos : 0 < body.length := List.length_pos_iff.mpr hbody
    have hlen := length_encryptMessage lib.aes128 sender.key (by decide) (by decide) sender.nonce
      body
    rw [if_neg (by omega), if_neg hbody, startSend_eq lib sender hdr body _ hhdr]
    dsimp only
    rw [encrypt_eq lib _ _ _ _ hhdr, hlen, ← add_padSize, ← Nat.add_assoc, ← hhdr,
      ← List.length_append]
    rfl

end Cipher

end Lax
