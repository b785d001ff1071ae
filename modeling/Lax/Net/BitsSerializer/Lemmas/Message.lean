import Lax.Net.Basic
import Lax.Net.BitsSerializer.Impl.Message
import Lax.Net.BitsSerializer.Lemmas.Reader
import Lax.Net.BitsSerializer.Lemmas.RoundTrip

/-!
This module contains what a message is after it has been read from a part of a buffer: what the bytes
of the part say, and nothing of what is around it.
-/

namespace Lax
namespace BitsSerializer

open Input

namespace Message

variable {t : Ty}

-- What a run leaves in the message, and what it returns.
def ofRun (m : Message t) : Except ReaderError (List UInt8) → Message t × Bool
  | .error e => ({ m with readerError := some e }, false)
  | .ok rest => ({ m with readerError := none }, rest.isEmpty)

theorem unpack_eq {buf : List UInt8} {iter len : Nat} (h : InRange buf iter len) :
    unpack t buf iter len
      = ofRun (exec .dataOverflow (readFields t) (.ok (Slice.read buf iter len))).1
          (exec .dataOverflow (readFields t) (.ok (Slice.read buf iter len))).2 := by
  have hend : (Reader.ctor buf iter len).endIt ≤ (Reader.ctor buf iter len).buf.length := h
  obtain ⟨hfields, hview⟩ := Reader.run_eq_exec (readFields t) hend
  have hcompleted := Reader.isCompletedSuccessfully_iff (Reader.endIt_run_le (readFields t) hend)
  rw [Reader.view_ctor] at hfields hview
  unfold unpack
  rw [← hfields, ← hview]
  generalize Reader.run (readFields t) (Reader.ctor buf iter len) = x at hcompleted
  obtain ⟨m, reader⟩ := x
  cases hrun : reader.view with
  | error e =>
    rw [hrun] at hcompleted
    simp only [ofRun, Reader.error_eq_some_iff.mpr hrun]
    exact congrArg _ (Bool.eq_false_iff.mpr fun h => nomatch hcompleted.mp h)
  | ok rest =>
    rw [hrun] at hcompleted
    simp only [ofRun, Reader.error_eq_none_iff.mpr (Reader.view_eq_ok_iff.mp hrun).1]
    refine congrArg _ (Bool.eq_iff_iff.mpr ?_)
    rw [hcompleted, List.isEmpty_iff]
    exact ⟨Except.ok.inj, congrArg _⟩

/--
The bytes around those that the message is read from play no part in it, however malformed they are.
-/
theorem unpack_congr {buf buf' : List UInt8} {iter iter' len : Nat} (h : InRange buf iter len)
    (h' : InRange buf' iter' len) (hread : Slice.read buf iter len = Slice.read buf' iter' len) :
    unpack t buf iter len = unpack t buf' iter' len := by
  rw [unpack_eq h, unpack_eq h', hread]

theorem unpack_congr_shifted :
    unpack (.value 1) [1, 0, 0, 0, 2, 0, 0, 0, 3] 0 9
      = unpack (.value 1) [0xFF, 1, 0, 0, 0, 2, 0, 0, 0, 3, 0xFF] 1 9 :=
  unpack_congr (by decide) (by decide) rfl

theorem encodes_readFields {m : Message t} (h : Fits t m.members) (topicKey : BitVec 32) :
    Encodes (readFields t) (m.pack topicKey)
      { length := m.length, topic := topicKey, members := m.members } := by
  have hmembers := (encodes_deserialize h).map fun members =>
    ({ length := m.length, topic := topicKey, members } : Message t)
  exact (encodes_readBytes (w := 4) m.length).bind ((encodes_readBytes (w := 4) topicKey).bind hmembers)

theorem fits_of_parse_readFields {m : Message t} {s rest : List UInt8}
    (h : parse (readFields t) s = .ok (m, rest)) : Fits t m.members := by
  obtain ⟨length, s₁, -, h⟩ := parse_bind_ok h
  obtain ⟨topic, s₂, -, h⟩ := parse_bind_ok h
  obtain ⟨members, s₃, hmembers, h⟩ := parse_bind_ok h
  injection h with h
  injection h with hm
  subst hm
  exact fits_of_parse hmembers

theorem unpack_of_parse {buf : List UInt8} {iter len : Nat} (h : InRange buf iter len)
    {m : Message t} {rest : List UInt8}
    (hparse : parse (readFields t) (Slice.read buf iter len) = .ok (m, rest)) :
    unpack t buf iter len = ({ m with readerError := none }, rest.isEmpty) := by
  rw [unpack_eq h, exec_ok_iff.mpr hparse]
  rfl

theorem unpack_of_parse_error {buf : List UInt8} {iter len : Nat} (h : InRange buf iter len)
    {e : Option ReaderError} (hparse : parse (readFields t) (Slice.read buf iter len) = .error e) :
    (unpack t buf iter len).2 = false
      ∧ (unpack t buf iter len).1.readerError = some (e.getD .dataOverflow) := by
  obtain ⟨m, rest, hok, -⟩ | ⟨e', herror, hexec⟩ :=
    parse_eq_exec .dataOverflow (readFields t) (Slice.read buf iter len)
  . rw [hok] at hparse
    cases hparse
  . rw [hparse] at herror
    injection herror with he
    rw [unpack_eq h, hexec, he]
    exact ⟨rfl, rfl⟩

theorem parse_of_unpack {buf : List UInt8} {iter len : Nat} (h : InRange buf iter len)
    {m : Message t} (hunpack : unpack t buf iter len = (m, true)) :
    ∃ m', parse (readFields t) (Slice.read buf iter len) = .ok (m', [])
      ∧ m = { m' with readerError := none } := by
  rw [unpack_eq h] at hunpack
  generalize hx : exec .dataOverflow (readFields t) (.ok (Slice.read buf iter len)) = x at hunpack
  obtain ⟨m', st⟩ := x
  cases st with
  | error e => cases hunpack
  | ok rest =>
    injection hunpack with hm hrest
    rw [List.isEmpty_iff.mp hrest] at hx
    exact ⟨m', exec_ok_iff.mp hx, hm.symm⟩

section Packed

variable {m : Message t} {topicKey : BitVec 32} {pre post : List UInt8}

/--
The messages that are unpacked as they have been packed, wherever in a buffer that is.
-/
theorem unpack_pack_iff :
    unpack t (pre ++ m.pack topicKey ++ post) pre.length (m.pack topicKey).length
        = ({ m with topic := topicKey, readerError := none }, true)
      ↔ Fits t m.members := by
  have hin : InRange (pre ++ m.pack topicKey ++ post) pre.length (m.pack topicKey).length := by
    unfold InRange
    rw [List.length_append, List.length_append]
    exact Nat.le_add_right _ _
  have hread := Slice.read_start pre (m.pack topicKey) post (Nat.le_refl _)
  rw [List.take_length] at hread
  constructor
  . intro h
    obtain ⟨m', hparse, hm⟩ := parse_of_unpack hin h
    injection hm with hlength htopic hmembers
    rw [hmembers]
    exact fits_of_parse_readFields hparse
  . intro h
    have hparse := encodes_readFields h topicKey []
    rw [List.append_nil, ← hread] at hparse
    exact unpack_of_parse hin hparse

/--
A part of the buffer that starts with a message is unpacked as that message if it ends where the
message does. Something is missing if it ends earlier, and something left if it ends later.
-/
theorem unpack_len (h : Fits t m.members) {len : Nat}
    (hin : InRange (pre ++ m.pack topicKey ++ post) pre.length len) :
    (len < (m.pack topicKey).length →
        (unpack t (pre ++ m.pack topicKey ++ post) pre.length len).2 = false
          ∧ (unpack t (pre ++ m.pack topicKey ++ post) pre.length len).1.readerError
              = some .dataOverflow)
      ∧ ((m.pack topicKey).length ≤ len →
        unpack t (pre ++ m.pack topicKey ++ post) pre.length len
          = ({ m with topic := topicKey, readerError := none },
              decide (len = (m.pack topicKey).length))) := by
  have henc := encodes_readFields h topicKey
  constructor
  . intro hlt
    have hread := Slice.read_start pre (m.pack topicKey) post (Nat.le_of_lt hlt)
    have hcut := henc.parse_take hlt
    rw [← hread] at hcut
    exact unpack_of_parse_error hin hcut
  . intro hle
    unfold InRange at hin
    rw [List.length_append, List.length_append] at hin
    have hread : Slice.read (pre ++ m.pack topicKey ++ post) pre.length len
        = m.pack topicKey ++ post.take (len - (m.pack topicKey).length) := by
      have hlen : len ≤ (m.pack topicKey ++ post).length := by
        rw [List.length_append]
        omega
      have hstart := Slice.read_start pre (m.pack topicKey ++ post) [] hlen
      rwa [List.append_nil, ← List.append_assoc, List.take_append, List.take_of_length_le hle]
        at hstart
    have hparse := henc (post.take (len - (m.pack topicKey).length))
    rw [← hread] at hparse
    rw [unpack_of_parse (by unfold InRange; simp only [List.length_append]; omega) hparse]
    refine congrArg _ (Bool.eq_iff_iff.mpr ?_)
    rw [List.isEmpty_iff, decide_eq_true_iff, ← List.length_eq_zero_iff, List.length_take]
    omega

end Packed

-- The last byte of the frame is not there yet.
theorem unpack_len_cut :
    (unpack (.value 1) ([0xFF] ++ pack (t := .value 1) { members := 7#8 } 1#32 ++ [0xFF]) 1 8).2
      = false :=
  ((@unpack_len (.value 1) { members := 7#8 } 1#32 [0xFF] [0xFF] trivial 8 (by decide)).1
    (by decide)).1

end Message

end BitsSerializer
end Lax
