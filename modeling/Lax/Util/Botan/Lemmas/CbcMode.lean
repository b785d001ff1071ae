import Lax.Util.Botan.Impl.Amalgamation
import Lax.Util.Botan.Impl.CbcMode
import Lax.Util.Botan.Lemmas.Cbc

/-!
This module contains what the calls of the cipher come to, whatever the object was used for before.
-/

namespace Lax

open BlockMode

namespace Aes

theorem encryptN_eq_blockwise (cacheLineSize : CacheLineSize) (key : List UInt8) :
    encryptN cacheLineSize (schedule key).ek (schedule key).me
      =
    blockwise 16 ((aes128 cacheLineSize).encrypt key) := by
  funext blocks input
  induction blocks generalizing input with
  | zero => rfl
  | succ blocks ih =>
    rw [encryptN, blockwise, ih]
    rfl

theorem decryptN_eq_blockwise (cacheLineSize : CacheLineSize) (key : List UInt8) :
    decryptN cacheLineSize (schedule key).dk (schedule key).md
      =
    blockwise 16 ((aes128 cacheLineSize).decrypt key) := by
  funext blocks input
  induction blocks generalizing input with
  | zero => rfl
  | succ blocks ih =>
    rw [decryptN, blockwise, ih]
    rfl

end Aes

namespace CbcMode

section

variable (mode : CbcMode)

theorem setKey_eq {key : List UInt8} (h : key.length = 16) :
    mode.setKey key = some { mode with schedule := some (Aes.schedule key) } := by
  have hks := (Aes.keySchedule_sixteen key).1
  rw [Aes.sixteen_of_length h] at hks
  rw [setKey, if_neg (not_not.mpr h), hks]

theorem start_eq {nonce : List UInt8} (h : nonce.length = 16) :
    mode.start nonce = some { mode with state := nonce } := by
  have hvalid : validNonceLength nonce.length = true := by
    rw [h]
    decide
  rw [start, hvalid, if_neg (not_not.mpr rfl), if_pos (by omega)]

end

section

variable {cacheLineSize : Aes.CacheLineSize} {mode : CbcMode} {key : List UInt8}
  (hkey : mode.schedule = some (Aes.schedule key))

include hkey

theorem processEncrypt_eq {blocks : Nat} {buf : List UInt8} (h : buf.length = blocks * 16) :
    mode.processEncrypt cacheLineSize buf
      =
    some ((encryptProcess (Aes.aes128 cacheLineSize) key blocks mode.state buf).1,
      { mode with state := (encryptProcess (Aes.aes128 cacheLineSize) key blocks mode.state buf).2 })
      := by
  rw [processEncrypt, if_neg (by omega)]
  by_cases hzero : buf.length = 0
  . obtain rfl : blocks = 0 := by omega
    rw [if_pos hzero]
    rfl
  . rw [if_neg hzero, hkey, Option.map_some, Aes.encryptN_eq_blockwise, h,
      Nat.mul_div_cancel _ (by decide), CbcEncryption.process_eq _ _ _ (Nat.le_of_eq h.symm)]

theorem processDecrypt_eq {blocks : Nat} {buf : List UInt8} (h : buf.length = blocks * 16) :
    mode.processDecrypt cacheLineSize buf
      =
    some ((decryptProcess (Aes.aes128 cacheLineSize) key blocks mode.state buf).1,
      { mode with state := (decryptProcess (Aes.aes128 cacheLineSize) key blocks mode.state buf).2 })
      := by
  rw [processDecrypt, if_neg (by omega)]
  by_cases hzero : buf.length = 0
  . obtain rfl : blocks = 0 := by omega
    rw [if_pos hzero]
    rfl
  . rw [if_neg hzero, hkey, Option.map_some, Aes.decryptN_eq_blockwise, h,
      Nat.mul_div_cancel _ (by decide),
      CbcDecryption.process_eq _ _ (by decide) (by decide) (Nat.le_of_eq h.symm)]

theorem finishEncrypt_eq {last : List UInt8} (h : last.length < 16) :
    mode.finishEncrypt cacheLineSize last
      =
    some (encryptFinish (Aes.aes128 cacheLineSize) key mode.state last) := by
  rw [finishEncrypt, hkey, Option.bind_some, Aes.encryptN_eq_blockwise,
    CbcEncryption.finish_eq _ _ _ h (by decide)]

theorem finishDecrypt_eq {block : List UInt8} (h : block.length = 16) :
    mode.finishDecrypt cacheLineSize block
      =
    decryptFinish (Aes.aes128 cacheLineSize) key mode.state block := by
  rw [finishDecrypt, hkey, Option.bind_some, Aes.decryptN_eq_blockwise,
    CbcDecryption.finish_eq_decryptMessage _ _ _ _ _ (by decide) (by decide) (by decide),
    if_neg (by omega), decryptMessage, h]
  exact Option.map_id'

end

variable (cacheLineSize : Aes.CacheLineSize) (mode : CbcMode) {key nonce : List UInt8}
  (hkey : key.length = 16) (hnonce : nonce.length = 16)

include hkey hnonce

theorem encrypt_eq (payload : List UInt8) :
    mode.encrypt cacheLineSize key nonce payload
      =
    some (encryptMessage (Aes.aes128 cacheLineSize) key nonce payload) := by
  have hmod := Nat.mod_lt payload.length (show 0 < 16 by decide)
  have hwhole : payload.length + (16 - payload.length % 16) - 16 = payload.length / 16 * 16 := by
    omega
  have htake : (payload.take (payload.length / 16 * 16)).length = payload.length / 16 * 16 := by
    rw [List.length_take]
    omega
  have hlast : (payload.drop (payload.length / 16 * 16)).length < 16 := by
    rw [List.length_drop]
    omega
  unfold encrypt
  simp only [Option.bind_eq_bind, Option.pure_def]
  rw [setKey_eq _ hkey, Option.bind_some, start_eq _ hnonce, Option.bind_some, hwhole,
    processEncrypt_eq rfl htake, Option.bind_some]
  dsimp only
  rw [finishEncrypt_eq rfl hlast, Option.bind_some,
    encryptProcess_take _ _ _ (Nat.div_mul_le_self payload.length 16)]
  rfl

theorem decrypt_eq {blocks : Nat} {cipher : List UInt8} (hlen : cipher.length = (blocks + 1) * 16) :
    mode.decrypt cacheLineSize key nonce cipher
      =
    decryptMessage (Aes.aes128 cacheLineSize) key nonce cipher := by
  have hwhole : cipher.length - 16 = blocks * 16 := by omega
  have htake : (cipher.take (blocks * 16)).length = blocks * 16 := by
    rw [List.length_take]
    omega
  have hlast : (cipher.drop (blocks * 16)).length = 16 := by
    rw [List.length_drop]
    omega
  have hprocess := decryptProcess_append (Aes.aes128 cacheLineSize) key blocks nonce
    (cipher.take (blocks * 16)) (cipher.drop (blocks * 16)) (Nat.le_of_eq htake.symm)
  rw [List.take_append_drop] at hprocess
  unfold decrypt
  simp only [Option.bind_eq_bind, Option.pure_def]
  rw [start_eq _ hnonce, Option.bind_some, setKey_eq _ hkey, Option.bind_some, hwhole,
    processDecrypt_eq rfl htake, Option.bind_some]
  dsimp only
  rw [finishDecrypt_eq rfl hlast, decryptMessage, length_div_sub_one (by decide) hlen, hprocess]
  dsimp only
  rw [Option.map_eq_bind]
  rfl

-- With less than a block nothing is left for `process`, and `finish` throws.
theorem decrypt_eq_none {cipher : List UInt8}
    (hpart : ¬(cipher.length ≠ 0 ∧ cipher.length % 16 = 0)) :
    mode.decrypt cacheLineSize key nonce cipher = none := by
  unfold decrypt
  simp only [Option.bind_eq_bind, Option.pure_def]
  rw [start_eq _ hnonce, Option.bind_some, setKey_eq _ hkey, Option.bind_some]
  by_cases hlt : cipher.length < 16
  . have hbad : (cipher.drop (cipher.length - 16)).length = 0
        ∨ (cipher.drop (cipher.length - 16)).length % 16 ≠ 0 := by
      rw [List.length_drop]
      omega
    rw [Option.bind_eq_none_iff]
    intro processed _
    rw [Option.bind_eq_none_iff]
    intro last hlast
    rw [finishDecrypt, Option.bind_eq_some_iff] at hlast
    obtain ⟨ks, -, hlast⟩ := hlast
    rw [CbcDecryption.finish] at hlast
    dsimp only at hlast
    rw [if_pos hbad] at hlast
    contradiction
  . have hbad : (cipher.take (cipher.length - 16)).length % 16 ≠ 0 := by
      rw [List.length_take]
      omega
    rw [processDecrypt, if_pos hbad]
    rfl

theorem isSome_decrypt_iff (cipher : List UInt8) :
    (mode.decrypt cacheLineSize key nonce cipher).isSome
      ↔ (cipher.length ≠ 0 ∧ cipher.length % 16 = 0)
        ∧ Padded (lastPlain (Aes.aes128 cacheLineSize) key nonce cipher) := by
  by_cases hwhole : cipher.length ≠ 0 ∧ cipher.length % 16 = 0
  . obtain ⟨blocks, hlen⟩ : ∃ blocks, cipher.length = (blocks + 1) * 16 :=
      ⟨cipher.length / 16 - 1, by omega⟩
    rw [decrypt_eq _ _ hkey hnonce hlen, and_iff_right hwhole]
    exact isSome_decryptMessage_iff _ _ (by decide) hnonce hlen
  . rw [decrypt_eq_none _ _ hkey hnonce hwhole]
    exact iff_of_false Bool.false_ne_true fun h => hwhole h.1

end CbcMode

end Lax
