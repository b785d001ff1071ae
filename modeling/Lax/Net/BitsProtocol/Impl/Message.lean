import Lax.Foundation.Slice
import Lax.Net.Basic

/-!
This module contains messages and how they get into and out of a buffer.
-/

namespace Lax

-- What the serializer does with the members of a message. A class is named by its topic key.
structure Bitsery (Body : UInt32 → Type) where
  serialize : (cls : UInt32) → Body cls → List UInt8
  -- the members and the bytes that are left
  deserialize : (cls : UInt32) → List UInt8 → Option (Body cls × List UInt8)
  deserialize_serialize : ∀ cls body, deserialize cls (serialize cls body) = some (body, [])
  deserialize_append : ∀ cls bytes more body rest, deserialize cls bytes = some (body, rest) →
    deserialize cls (bytes ++ more) = some (body, rest ++ more)

-- Every class has an array of `n` bytes as its only member.
def Bitsery.array (n : Nat) : Bitsery fun _ => { xs : List UInt8 // xs.length = n } where
  serialize := fun _ body => body.val
  deserialize := fun _ bytes =>
    if h : n ≤ bytes.length then
      some (⟨bytes.take n, by rw [List.length_take, Nat.min_eq_left h]⟩, bytes.drop n)
    else
      none
  deserialize_serialize := by
    intro cls body
    obtain ⟨xs, rfl⟩ := body
    simp
  deserialize_append := by
    intro cls bytes more body rest h
    split at h
    . next hle =>
      injection h with h
      injection h with hbody hrest
      have hle' : n ≤ (bytes ++ more).length := by
        rw [List.length_append]
        omega
      rw [dif_pos hle', ← hbody, ← hrest]
      simp only [List.take_append_of_le_length hle, List.drop_append_of_le_length hle]
    . contradiction

structure BitsMessage (Body : UInt32 → Type) where
  cls : UInt32
  flags : Flags
  length : UInt32 := 0
  topic : UInt32 := 0
  body : Body cls

namespace BitsMessage

def value4b (value : UInt32) : List UInt8 :=
  [value.toUInt8, (value >>> 8).toUInt8, (value >>> 16).toUInt8, (value >>> 24).toUInt8]

def getValue4b (buf : List UInt8) (pos : Nat) : UInt32 :=
  (buf.getD pos 0).toUInt32
    ||| (buf.getD (pos + 1) 0).toUInt32 <<< 8
    ||| (buf.getD (pos + 2) 0).toUInt32 <<< 16
    ||| (buf.getD (pos + 3) 0).toUInt32 <<< 24

variable {Body : UInt32 → Type} (codec : Bitsery Body)

-- The topic is the topic key of the class, whatever the field holds.
def pack (m : BitsMessage Body) : List UInt8 :=
  value4b m.length ++ value4b m.cls ++ codec.serialize m.cls m.body

def unpack (cls : UInt32) (flags : Flags) (buf : List UInt8) (pos len : Nat) :
    Option (BitsMessage Body) :=
  -- the end of the adapter lies before its begin if `len` is negative as a `ptrdiff_t`
  if 2 ^ 63 ≤ len ∨ ¬InRange buf pos len then
    none
  else
    let bytes := Slice.read buf pos len
    if bytes.length < headerLength then
      none
    else
      match codec.deserialize cls (bytes.drop headerLength) with
      | some (body, []) => some ⟨cls, flags, getValue4b bytes 0, getValue4b bytes 4, body⟩
      | _ => none

end BitsMessage

end Lax
