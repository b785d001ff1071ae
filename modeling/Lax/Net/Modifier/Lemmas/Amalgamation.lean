import Lax.Net.Modifier.Lemmas.Cipher
import Lax.Util.Botan.Lemmas.CbcMode
import Lax.Util.Botan.Lemmas.Sha1

/-!
This module contains what the cipher asks of the crypto library it is built with: in every state that
it gets to, its keys and nonces are of the length that the library takes.
-/

namespace Lax

open BlockMode

namespace CipherImpl

variable (cacheLineSize : Aes.CacheLineSize) (cfg : Config)

structure Sized (c : CipherImpl) : Prop where
  key : c.key.length = 16
  nonce : c.nonce.length = 16

theorem length_data_updateHash (c : CipherImpl) (buf : List UInt8) (msgPos msgLen : Nat) :
    (c.updateHash (.amalgamation cacheLineSize) buf msgPos msgLen).data.length = 20 :=
  Sha1.length_hash _

theorem data_complete (c : CipherImpl) : (c.complete cfg).data = c.data := by
  unfold complete
  dsimp only
  split <;> rfl

theorem Sized.complete {c : CipherImpl} (h : c.Sized) (hdata : c.data.length = 20) :
    (c.complete cfg).Sized := by
  have htake : (c.data.take 16).length = 16 := by
    rw [List.length_take, hdata]
    decide
  unfold CipherImpl.complete
  dsimp only
  split
  . exact ⟨htake, htake⟩
  . exact ⟨h.key, htake⟩

theorem Sized.updateHash {c : CipherImpl} (h : c.Sized) (lib : Botan) (buf : List UInt8)
    (msgPos msgLen : Nat) : (c.updateHash lib buf msgPos msgLen).Sized :=
  ⟨h.key, h.nonce⟩

end CipherImpl

namespace Cipher

variable (cacheLineSize : Aes.CacheLineSize) (cfg : Config)

-- Any order of frames that come in, whatever is in them, and of the locked sections of any number of
-- threads that send. The number counts the threads between their two sections.
inductive Reached : Cipher → Nat → Prop where
  | bind : Reached onBind 0
  | recv {c : Cipher} {n : Nat} (h : Reached c n) (buf : List UInt8) (msgPos msgLen : Nat) :
    Reached { c with receiver :=
      (onRecv (.amalgamation cacheLineSize) cfg c.receiver buf msgPos msgLen).state } n
  | startSend {c : Cipher} {n : Nat} (h : Reached c n) (buf : List UInt8) (msgPos msgLen : Nat) :
    Reached { c with sender :=
      (startSend (.amalgamation cacheLineSize) c.sender buf msgPos msgLen).2 } (n + 1)
  | complete {c : Cipher} {n : Nat} (h : Reached c (n + 1)) :
    Reached { c with sender := c.sender.complete cfg } n

-- A frame either leaves the receiver alone or its plain text goes into the hash.
theorem state_onRecv (lib : Botan) (receiver : CipherImpl) (buf : List UInt8) (msgPos msgLen : Nat) :
    (onRecv lib cfg receiver buf msgPos msgLen).state = receiver
      ∨ ∃ buf' pos len, (onRecv lib cfg receiver buf msgPos msgLen).state
        = (receiver.updateHash lib buf' pos len).complete cfg := by
  unfold onRecv
  dsimp only
  split
  . exact Or.inl rfl
  . split
    . exact Or.inl rfl
    . split
      . exact Or.inl rfl
      . split
        . exact Or.inl rfl
        . exact Or.inr ⟨_, _, _, rfl⟩

variable {cacheLineSize cfg}

theorem Reached.sized {c : Cipher} {n : Nat} (h : Reached cacheLineSize cfg c n) :
    c.receiver.Sized ∧ c.sender.Sized ∧ (0 < n → c.sender.data.length = 20) := by
  induction h with
  | bind => exact ⟨⟨rfl, rfl⟩, ⟨rfl, rfl⟩, fun h => absurd h (by decide)⟩
  | @recv c n _ buf msgPos msgLen ih =>
    obtain ⟨hreceiver, hsender⟩ := ih
    refine ⟨?_, hsender⟩
    obtain heq | ⟨buf', pos, len, heq⟩ := state_onRecv cfg (.amalgamation cacheLineSize) c.receiver
      buf msgPos msgLen
    . rwa [heq]
    . rw [heq]
      exact (hreceiver.updateHash _ _ _ _).complete cfg
        (c.receiver.length_data_updateHash cacheLineSize buf' pos len)
  | @startSend c n _ buf msgPos msgLen ih =>
    obtain ⟨hreceiver, hsender, -⟩ := ih
    exact ⟨hreceiver, hsender.updateHash _ _ _ _,
      fun _ => c.sender.length_data_updateHash cacheLineSize _ _ _⟩
  | complete _ ih =>
    obtain ⟨hreceiver, hsender, hdata⟩ := ih
    have hdata := hdata (Nat.zero_lt_succ _)
    exact ⟨hreceiver, hsender.complete cfg hdata,
      fun _ => (CipherImpl.data_complete cfg _).symm ▸ hdata⟩

/--
The object serves all sessions of its thread, so it may be in any state. A cipher text that is not
refused is whole blocks, the last of which ends as the scan of the padding wants it.
-/
theorem Reached.crypt_eq {c : Cipher} {n : Nat} (h : Reached cacheLineSize cfg c n) (mode : CbcMode) :
    (∀ payload, mode.encrypt cacheLineSize c.sender.key c.sender.nonce payload
        = some (encryptMessage (Botan.amalgamation cacheLineSize).aes128 c.sender.key c.sender.nonce
          payload))
      ∧ (∀ cipher, (mode.decrypt cacheLineSize c.receiver.key c.receiver.nonce cipher).isSome
        ↔ (cipher.length ≠ 0 ∧ cipher.length % 16 = 0)
          ∧ Padded (lastPlain (Botan.amalgamation cacheLineSize).aes128 c.receiver.key
            c.receiver.nonce cipher))
      ∧ ∀ cipher, cipher.length ≠ 0 ∧ cipher.length % 16 = 0 →
        mode.decrypt cacheLineSize c.receiver.key c.receiver.nonce cipher
          = decryptMessage (Botan.amalgamation cacheLineSize).aes128 c.receiver.key c.receiver.nonce
            cipher := by
  obtain ⟨hreceiver, hsender, -⟩ := h.sized
  refine ⟨?_, ?_, ?_⟩
  . exact mode.encrypt_eq cacheLineSize hsender.key hsender.nonce
  . exact mode.isSome_decrypt_iff cacheLineSize hreceiver.key hreceiver.nonce
  . intro cipher hwhole
    have hlen : cipher.length = (cipher.length / 16 - 1 + 1) * 16 := by omega
    exact mode.decrypt_eq cacheLineSize hreceiver.key hreceiver.nonce hlen

-- One thread is between its sections, and the object still has the key and the state of another session.
theorem crypt_eq_between :
    let c : Cipher := { onBind with sender :=
      (startSend (.amalgamation 64) onBind.sender [1, 2, 3] 0 3).2 }
    let mode : CbcMode := ⟨some (Aes.schedule [1]), List.replicate 16 9⟩
    (∀ payload, mode.encrypt 64 c.sender.key c.sender.nonce payload
        = some (encryptMessage (Botan.amalgamation 64).aes128 c.sender.key c.sender.nonce payload))
      ∧ (∀ cipher, (mode.decrypt 64 c.receiver.key c.receiver.nonce cipher).isSome
        ↔ (cipher.length ≠ 0 ∧ cipher.length % 16 = 0)
          ∧ Padded (lastPlain (Botan.amalgamation 64).aes128 c.receiver.key c.receiver.nonce cipher))
      ∧ ∀ cipher, cipher.length ≠ 0 ∧ cipher.length % 16 = 0 →
        mode.decrypt 64 c.receiver.key c.receiver.nonce cipher
          = decryptMessage (Botan.amalgamation 64).aes128 c.receiver.key c.receiver.nonce cipher :=
  Reached.crypt_eq (@Reached.startSend 64 {} _ _ .bind [1, 2, 3] 0 3) _

end Cipher

end Lax
