import Lax.Net.BitsProtocol.Lemmas.Message
import Lax.Net.BitsSerializer.Lemmas.Message

/-!
This module contains that the serializer does with the members of a message what the protocol asks of
it, whatever the members are.
-/

namespace Lax
namespace BitsSerializer

-- The members of a message. They are no larger than what can be written.
abbrev Members (t : Ty) : Type :=
  { members : Val t // Fits t members }

def parseMembers (t : Ty) (bytes : List UInt8) : Option (Members t × List UInt8) :=
  match h : Input.parse (deserialize t) bytes with
  | .ok x => some (⟨x.1, fits_of_parse h⟩, x.2)
  | .error _ => none

theorem parseMembers_eq_some_iff {t : Ty} {bytes rest : List UInt8} {members : Members t} :
    parseMembers t bytes = some (members, rest)
      ↔ Input.parse (deserialize t) bytes = .ok (members.val, rest) := by
  unfold parseMembers
  split
  . next x h =>
    constructor
    . intro heq
      cases heq
      exact h
    . intro heq
      rw [h] at heq
      cases heq
      rfl
  . next e h =>
    refine ⟨nofun, ?_⟩
    intro heq
    rw [h] at heq
    cases heq

variable (schema : UInt32 → Ty)

-- The classes are those with a topic key, `schema` says what a class has as its members.
def codec : Bitsery fun cls => Members (schema cls) where
  serialize := fun cls body => serialize (schema cls) body.val
  deserialize := fun cls bytes => parseMembers (schema cls) bytes
  deserialize_serialize := by
    intro cls body
    have hparse := encodes_deserialize body.property []
    rw [List.append_nil] at hparse
    exact parseMembers_eq_some_iff.mpr hparse
  deserialize_append := by
    intro cls bytes more body rest h
    exact parseMembers_eq_some_iff.mpr (Input.parse_append (parseMembers_eq_some_iff.mp h) more)

theorem value4b_eq (value : UInt32) :
    BitsMessage.value4b value = writeBytes (w := 4) value.toBitVec := by
  have hbyte : ∀ k : UInt32, (value >>> k).toUInt8 = UInt8.ofNat (value.toNat >>> (k.toNat % 32)) := by
    intro k
    apply UInt8.toNat_inj.mp
    rw [UInt32.toNat_toUInt8, UInt32.toNat_shiftRight, UInt8.toNat_ofNat']
  unfold BitsMessage.value4b writeBytes
  simp only [LittleEndian.encode, hbyte, Nat.shiftRight_eq_div_pow, Nat.div_div_eq_div_mul]
  rfl

theorem getValue4b_eq {bytes : List UInt8} (h : 4 ≤ bytes.length) :
    (BitsMessage.getValue4b bytes 0).toBitVec
      = BitVec.ofNat (8 * 4) (LittleEndian.decode (bytes.take 4)) := by
  obtain ⟨b₀, b₁, b₂, b₃, rest, rfl⟩ : ∃ b₀ b₁ b₂ b₃ rest, bytes = b₀ :: b₁ :: b₂ :: b₃ :: rest := by
    match bytes, h with
    | b₀ :: b₁ :: b₂ :: b₃ :: rest, _ => exact ⟨b₀, b₁, b₂, b₃, rest, rfl⟩
  apply BitVec.eq_of_toNat_eq
  have hvalue := BitsMessage.toNat_getValue4b b₀ b₁ b₂ b₃ rest
  have hlt := (BitsMessage.getValue4b (b₀ :: b₁ :: b₂ :: b₃ :: rest) 0).toNat_lt
  rw [UInt32.toNat_toBitVec, BitVec.toNat_ofNat]
  simp only [List.take_succ_cons, List.take_zero, LittleEndian.decode_cons, LittleEndian.decode_nil]
  omega

theorem pack_codec (m : BitsMessage fun cls => Members (schema cls)) :
    m.pack (codec schema)
      = ({ length := m.length.toBitVec, members := m.body.val } : Message (schema m.cls)).pack
          m.cls.toBitVec := by
  unfold BitsMessage.pack Message.pack
  rw [value4b_eq, value4b_eq, List.append_assoc]
  rfl

theorem parse_readBytes {w : Nat} {s : List UInt8} (h : w ≤ s.length) :
    Input.parse (readBytes w) s
      = .ok (BitVec.ofNat (8 * w) (LittleEndian.decode (s.take w)), s.drop w) := by
  unfold readBytes
  rw [Input.parse_read, if_pos h]
  rfl

theorem parse_readFields_of_le (t : Ty) {bytes : List UInt8} (h : headerLength ≤ bytes.length) :
    Input.parse (Message.readFields t) bytes
      = (Input.parse (deserialize t) (bytes.drop headerLength)).map fun x =>
        ({ length := (BitsMessage.getValue4b bytes 0).toBitVec
           topic := (BitsMessage.getValue4b bytes 4).toBitVec
           members := x.1 }, x.2) := by
  have hlength : 4 ≤ bytes.length := Nat.le_trans (by decide) h
  have htopic : 4 ≤ (bytes.drop 4).length := by
    rw [List.length_drop]
    exact Nat.le_sub_of_add_le h
  have hget : BitsMessage.getValue4b bytes 4 = BitsMessage.getValue4b (bytes.drop 4) 0 := by
    have hshift := BitsMessage.getValue4b_shift (bytes.take 4) (bytes.drop 4) 0
    rwa [List.take_append_drop, List.length_take_of_le hlength] at hshift
  unfold Message.readFields
  rw [Input.parse_bind_of_ok (parse_readBytes hlength), Input.parse_bind_of_ok (parse_readBytes htopic),
    Input.parse_bind, List.drop_drop, getValue4b_eq hlength, hget, getValue4b_eq htopic]
  rfl

theorem parse_readFields_of_lt (t : Ty) {bytes : List UInt8} (h : bytes.length < headerLength) :
    Input.parse (Message.readFields t) bytes = .error none := by
  unfold Message.readFields
  by_cases hlength : 4 ≤ bytes.length
  . rw [Input.parse_bind_of_ok (parse_readBytes hlength), Input.parse_bind, readBytes,
      Input.parse_read, if_neg]
    . rfl
    . rw [List.length_drop]
      unfold headerLength at h
      omega
  . rw [Input.parse_bind, readBytes, Input.parse_read, if_neg hlength]
    rfl

/--
A message that gets out of a buffer has been unpacked from it, and the other way around.
-/
theorem unpack_codec_iff {cls : UInt32} {flags : Flags} {buf : List UInt8} {pos len : Nat}
    (hin : InRange buf pos len) (hlen : len < 2 ^ 63) {length topic : UInt32}
    {body : Members (schema cls)} :
    BitsMessage.unpack (codec schema) cls flags buf pos len = some ⟨cls, flags, length, topic, body⟩
      ↔ Message.unpack (schema cls) buf pos len
        = ({ length := length.toBitVec, topic := topic.toBitVec, members := body.val }, true) := by
  unfold BitsMessage.unpack
  rw [if_neg (fun h => h.elim (Nat.not_le.mpr hlen) (absurd hin))]
  dsimp only
  split
  . next hlt =>
    refine ⟨nofun, ?_⟩
    intro hunpack
    obtain ⟨m, hparse, -⟩ := Message.parse_of_unpack hin hunpack
    rw [parse_readFields_of_lt _ hlt] at hparse
    cases hparse
  . next hle =>
    have hfields := parse_readFields_of_le (schema cls) (Nat.not_lt.mp hle)
    constructor
    . intro hunpack
      split at hunpack
      . next members heq =>
        cases hunpack
        rw [parseMembers_eq_some_iff.mp heq] at hfields
        exact Message.unpack_of_parse hin hfields
      . cases hunpack
    . intro hunpack
      obtain ⟨m, hparse, hm⟩ := Message.parse_of_unpack hin hunpack
      cases hmembers : Input.parse (deserialize (schema cls))
          ((Slice.read buf pos len).drop headerLength) with
      | error e =>
        rw [hfields, hmembers] at hparse
        cases hparse
      | ok x =>
        rw [hfields, hmembers] at hparse
        injection hparse with hparse
        injection hparse with hfst hrest
        rw [← hfst] at hm
        injection hm with hlength htopic hbody
        have hdeserialize : (codec schema).deserialize cls
            ((Slice.read buf pos len).drop headerLength) = some (body, []) := by
          apply parseMembers_eq_some_iff.mpr
          rw [hmembers, hbody, ← hrest]
        rw [hdeserialize, UInt32.toBitVec_inj.mp hlength, UInt32.toBitVec_inj.mp htopic]

theorem unpack_codec_iff_byte :
    BitsMessage.unpack (codec fun _ => .value 1) 2 {} [1, 0, 0, 0, 2, 0, 0, 0, 3] 0 9
      = some ⟨2, {}, 1, 2, ⟨3#8, trivial⟩⟩ :=
  (unpack_codec_iff (fun _ => .value 1) (by decide) (by decide)).mpr rfl

end BitsSerializer
end Lax
