import Lax.Net.Basic
import Lax.Util.Botan.Impl.Sha1
import Lax.Util.Botan.Lemmas.Aes
import Lax.Util.Botan.Lemmas.Crc32

/-!
This module contains the algorithms of the crypto library in the form in which the protocols use them.
-/

namespace Lax
namespace Aes

-- Every key has a schedule here. `set_key` takes keys of 16 bytes only, which are left as they are.
def sixteen (key : List UInt8) : List UInt8 :=
  (key ++ List.replicate 16 0).take 16

@[simp]
theorem length_sixteen (key : List UInt8) : (sixteen key).length = 16 := by
  rw [sixteen, List.length_take, List.length_append, List.length_replicate]
  omega

theorem sixteen_of_length {key : List UInt8} (h : key.length = 16) : sixteen key = key := by
  rw [sixteen, List.take_left' h]

def schedule (key : List UInt8) : KeySchedule :=
  match keySchedule (sixteen key) with
  | .ok ks => ks
  | .error () => ⟨[], [], [], []⟩

theorem keySchedule_sixteen (key : List UInt8) :
    keySchedule (sixteen key) = .ok (schedule key)
      ∧ (schedule key).Ok (expandKey (sixteen key) 4 10) 10 := by
  obtain ⟨ks, hks, hok⟩ := keySchedule_ok (Or.inl (length_sixteen key))
  rw [length_sixteen] at hok
  unfold schedule
  rw [hks]
  exact ⟨rfl, hok⟩

def aes128 (cacheLineSize : CacheLineSize) : BlockMode.BlockCipher blockSize where
  encrypt key block := encryptBlock cacheLineSize (schedule key).ek (schedule key).me block
  decrypt key block := decryptBlock cacheLineSize (schedule key).dk (schedule key).md block
  length_encrypt key _ _ :=
    length_encryptBlock (keySchedule_sixteen key).2 cacheLineSize _
  length_decrypt key _ _ :=
    length_decryptBlock (keySchedule_sixteen key).2 cacheLineSize _
  decrypt_encrypt key _ h :=
    (keySchedule_sixteen key).2.decrypt_encrypt cacheLineSize cacheLineSize h

end Aes

def Botan.amalgamation (cacheLineSize : Aes.CacheLineSize) : Botan where
  crc32 := Crc32.hash
  sha1 := fun input => Sha1.hash [input]
  aes128 := Aes.aes128 cacheLineSize
  length_crc32 := Crc32.length_hash

end Lax
