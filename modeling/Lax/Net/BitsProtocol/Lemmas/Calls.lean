import Lax.Net.BitsProtocol.Impl.Calls
import Lax.Net.BitsProtocol.Lemmas.RoundTrip
import Lax.Net.BitsProtocol.Lemmas.Waiting
import Lax.Net.Buffer.Lemmas.Pack

/-!
This module contains when the calls of the protocol find what they ask for.
-/

namespace Lax
namespace BitsProtocol

open BitsMessage
open Extent (AllExpected initialSize)

theorem allExpected_append (e : Extent) (calls calls' : List Extent.Call) :
    AllExpected initialSize e (calls ++ calls')
      ↔ AllExpected initialSize e calls
        ∧ AllExpected initialSize (e.callAll initialSize calls) calls' := by
  induction calls generalizing e with
  | nil => simp [AllExpected, Extent.callAll]
  | cons c calls ih =>
    have hall : Extent.callAll initialSize e (c :: calls)
        = (e.call initialSize c).callAll initialSize calls := rfl
    simp only [List.cons_append, AllExpected, ih, and_assoc, hall]

def IsAppend (c : Extent.Call) : Prop :=
  ∃ len, c = .append false len ∧ 0 < len

theorem allExpected_of_forall_isAppend (e : Extent) {calls : List Extent.Call}
    (h : ∀ c ∈ calls, IsAppend c) : AllExpected initialSize e calls := by
  induction calls generalizing e with
  | nil => trivial
  | cons c calls ih =>
    rw [List.forall_mem_cons] at h
    obtain ⟨⟨len, rfl, hlen⟩, h⟩ := h
    exact ⟨⟨rfl, hlen⟩, ih _ h⟩

/-!
### Sending
-/

theorem isAppend_of_mem_sendModifiedCalls {cfg : Config} {flags : Flags} {e : Extent}
    {c : Extent.Call} (hc : c ∈ sendModifiedCalls cfg flags e) : IsAppend c := by
  unfold sendModifiedCalls at hc
  simp only [List.mem_append] at hc
  rcases hc with (hc | hc) | hc
  . unfold sequenceCalls at hc
    split at hc
    . rw [List.mem_singleton] at hc
      exact ⟨_, hc, by decide⟩
    . cases hc
  . unfold checksumCalls at hc
    split at hc
    . split at hc
      . cases hc
      . rw [List.mem_singleton] at hc
        exact ⟨_, hc, by decide⟩
    . cases hc
  . unfold cipherCalls at hc
    split at hc
    . dsimp only at hc
      split at hc
      . cases hc
      . rw [List.mem_singleton] at hc
        refine ⟨_, hc, ?_⟩
        unfold Cipher.padSize blockSize
        omega
    . cases hc

theorem sendCalls_expected_iff (cfg : Config) (flags : Flags) (lens : List Nat) :
    AllExpected initialSize (sendCalls cfg flags lens).1 (sendCalls cfg flags lens).2
      ↔ ¬Extent.GrowthSize (headerLength + lens.sum) := by
  obtain ⟨hcount, hextent, -⟩ := Extent.pack_eq lens
  have hle := Extent.le_size_growTo initialSize (({} : Extent).increaseBufferSize initialSize)
    (8 + lens.sum)
  have hfills := Extent.fills_new_iff (8 + lens.sum)
  unfold Extent.Fills at hfills
  have hrewind : (8 + lens.sum < (Extent.pack initialSize lens).extent.size)
      ↔ ¬Extent.GrowthSize (8 + lens.sum) := by
    rw [← hfills, hextent]
    omega
  unfold sendCalls
  dsimp only
  have hheader : ¬8 + lens.sum < headerLength := Nat.not_lt_of_le (Nat.le_add_right _ _)
  rw [hcount, if_neg hheader, ← hrewind]
  split
  . dsimp only
    unfold AllExpected
    constructor
    . exact fun h => h.1
    . intro h
      refine ⟨h, ?_⟩
      apply allExpected_of_forall_isAppend
      intro c hc
      exact isAppend_of_mem_sendModifiedCalls hc
  . dsimp only
    unfold AllExpected
    simp [AllExpected, Extent.Call.Expected]

theorem sendDataCalls_expected (cfg : Config) (flags : Flags) (len : Nat) :
    AllExpected initialSize {} (sendDataCalls cfg flags len) := by
  unfold sendDataCalls
  split
  . trivial
  . next hlen =>
    split
    . apply allExpected_of_forall_isAppend
      rw [List.forall_mem_cons]
      refine ⟨⟨len, rfl, Nat.lt_of_lt_of_le (by decide) (Nat.le_of_not_lt hlen)⟩, ?_⟩
      intro c hc
      exact isAppend_of_mem_sendModifiedCalls hc
    . trivial

/-!
### Receiving
-/

variable {Body : UInt32 → Type} {env : Env Body}

theorem le_processedLen_loop (mods : Modifiers) (buf : List UInt8) (pos : Nat) :
    pos ≤ (loop env mods buf pos).processedLen := by
  fun_induction loop env mods buf pos with
  | case1 mods buf pos hcall => exact Nat.le_refl _
  | case2 mods buf pos call hcall handled e hrc => exact Nat.le_refl _
  | case3 mods buf pos call hcall handled m hrc rest ih => exact Nat.le_trans (Nat.le_add_right _ _) ih

-- What waits starts with a frame that is there as a whole, and with more than a header.
def StartsWithFrame (buf : List UInt8) : Prop :=
  headerLength < buf.length ∧ getLength buf 0 ≤ buf.length

theorem startsWithFrame_iff {mods : Modifiers} {buf : List UInt8} :
    StartsWithFrame buf ↔ nextCall mods buf 0 ≠ none := by
  rw [ne_eq, nextCall_eq_none_iff]
  unfold StartsWithFrame
  omega

theorem onRecvCalls_expected_iff (p : BitsProtocol) {bytes : List UInt8} (hbytes : bytes ≠ [])
    (e : Extent) :
    AllExpected initialSize e (onRecvCalls env p bytes) ↔ StartsWithFrame (p.recvBuf ++ bytes) := by
  have hlen : 0 < bytes.length := List.length_pos_iff.mpr hbytes
  have hblock : (e.append initialSize bytes.length).block.isSome := Extent.isSome_reserve _ _ _
  rw [@startsWithFrame_iff p.mods]
  unfold onRecvCalls
  rw [if_neg hbytes]
  dsimp only
  cases hcall : nextCall p.mods (p.recvBuf ++ bytes) 0 with
  | none =>
    rw [@loop_none _ env _ _ _ hcall]
    simp [AllExpected, Extent.Call.Expected]
  | some call =>
    cases hrc : (handle env call).rc with
    | error e =>
      rw [loop_error hcall hrc]
      simp [AllExpected, Extent.Call.Expected, hlen]
    | ok m =>
      rw [loop_ok hcall hrc, Nat.zero_add]
      dsimp only
      have hheader := headerLength_le_of_handle env (nextCall_eq_some hcall).2.2 hrc
      have hle := @le_processedLen_loop _ env (handle env call).mods (handle env call).buf call.len
      have hpos : 0 < (loop env (handle env call).mods (handle env call).buf call.len).processedLen := by
        apply Nat.lt_of_lt_of_le _ hle
        exact Nat.lt_of_lt_of_le (by decide) hheader
      split
      . simp [AllExpected, Extent.Call.Expected, hlen]
      . simp [AllExpected, Extent.Call.Expected, Extent.call, hlen, hblock, hpos]

-- Up to the first failure, each chunk leaves `recv_buf_` with a whole frame at its front.
def AllStartWithFrame (env : Env Body) (p : BitsProtocol) : List (List UInt8) → Prop
  | [] => True
  | bytes :: chunks =>
    let r := onRecv env p bytes
    match r.rc with
    | .error _ => StartsWithFrame (p.recvBuf ++ bytes)
    | .ok () => StartsWithFrame (p.recvBuf ++ bytes) ∧ AllStartWithFrame env r.protocol chunks

theorem onRecvAllCalls_expected_iff (p : BitsProtocol) {chunks : List (List UInt8)}
    (hchunks : ∀ bytes ∈ chunks, bytes ≠ []) (e : Extent) :
    AllExpected initialSize e (onRecvAllCalls env p chunks) ↔ AllStartWithFrame env p chunks := by
  induction chunks generalizing p e with
  | nil => simp [onRecvAllCalls, AllStartWithFrame, AllExpected]
  | cons bytes chunks ih =>
    rw [List.forall_mem_cons] at hchunks
    have hchunk := @onRecvCalls_expected_iff _ env p bytes hchunks.left
    unfold onRecvAllCalls AllStartWithFrame
    dsimp only
    cases (onRecv env p bytes).rc with
    | error failure => apply hchunk
    | ok =>
      dsimp only
      rw [allExpected_append]
      apply and_congr
      . apply hchunk
      . apply ih
        exact hchunks.right

/-!
### The extent is that of the buffer
-/

section

variable (lib : Botan) (cfg : Config) (flags : Flags) {e : Extent} {body : List UInt8}
  (he : e.size = headerLength + body.length)

include he

theorem size_callAll_sequenceCalls (mods : Modifiers) :
    (e.callAll initialSize (sequenceCalls cfg flags)).size
      = headerLength + (Modifiers.sequenced cfg flags mods body).length := by
  rw [Modifiers.length_sequenced]
  unfold sequenceCalls
  split
  . simp [Extent.callAll, Extent.call, Extent.append, Extent.size_reserve, he, Nat.add_assoc]
  . simpa [Extent.callAll] using he

theorem size_callAll_checksumCalls :
    (e.callAll initialSize (checksumCalls cfg flags e.size)).size
      = headerLength + (Modifiers.checked lib cfg flags body).length := by
  unfold checksumCalls
  by_cases hbody : body = []
  . subst hbody
    have hsize : e.size = headerLength := he
    simp [hsize, Modifiers.checked, Extent.callAll]
  . have hpos := List.length_pos_iff.mpr hbody
    have hsize : e.size ≠ headerLength := by omega
    rw [Modifiers.length_checked lib cfg flags hbody, if_neg hsize]
    split
    . simp [Extent.callAll, Extent.call, Extent.append, Extent.size_reserve, he, Nat.add_assoc]
    . simpa [Extent.callAll] using he

theorem size_callAll_cipherCalls (sender : CipherImpl) :
    (e.callAll initialSize (cipherCalls cfg flags e.size)).size
      = headerLength + (Modifiers.ciphered lib cfg flags sender body).length := by
  have hpayload : sizeSub e.size headerLength = body.length := by
    rw [sizeSub_of_le (by omega), he, Nat.add_sub_cancel_left]
  unfold cipherCalls
  dsimp only
  rw [hpayload]
  by_cases hbody : body = []
  . subst hbody
    simp [Modifiers.ciphered, Extent.callAll, he]
  . have hpos : body.length ≠ 0 := by simpa using hbody
    rw [Modifiers.length_ciphered lib cfg flags sender hbody, if_neg hpos]
    split
    . simp [Extent.callAll, Extent.call, Extent.append, Extent.size_reserve, he, Nat.add_assoc]
    . simpa [Extent.callAll] using he

theorem size_callAll_sendModifiedCalls (mods : Modifiers) :
    (e.callAll initialSize (sendModifiedCalls cfg flags e)).size
      = headerLength + (Modifiers.sealedBody lib cfg flags mods body).length := by
  have hsequence := size_callAll_sequenceCalls cfg flags he mods
  have hchecksum := size_callAll_checksumCalls lib cfg flags hsequence
  have hcipher := size_callAll_cipherCalls lib cfg flags hchecksum mods.cipher.sender
  unfold Extent.callAll at hcipher ⊢
  unfold sendModifiedCalls
  rw [List.foldl_append, List.foldl_append]
  exact hcipher

end

theorem size_rewind_pack (lens : List Nat) :
    let packed := Extent.pack initialSize lens
    (packed.extent.rewind packed.writtenBytesCount).size = headerLength + lens.sum := by
  obtain ⟨hcount, hextent, -⟩ := Extent.pack_eq lens
  have hle := Extent.le_size_growTo initialSize (({} : Extent).increaseBufferSize initialSize)
    (8 + lens.sum)
  dsimp only
  rw [hcount, hextent]
  unfold Extent.rewind
  split
  . next hge => exact Nat.le_antisymm hge hle
  . rfl

theorem size_callAll_sendCalls (m : BitsMessage Body) (mods : Modifiers) {lens : List Nat}
    (hlens : lens.sum = (payload env m).length) :
    let sent := sendCalls env.cfg m.flags lens
    (sent.1.callAll initialSize sent.2).size = (frame env mods m).length := by
  have hsize := size_rewind_pack lens
  have hheader : ¬(Extent.pack initialSize lens).writtenBytesCount < headerLength := by
    rw [(Extent.pack_eq lens).1]
    exact Nat.not_lt_of_le (Nat.le_add_right _ _)
  rw [hlens] at hsize
  unfold sendCalls
  dsimp only
  rw [if_neg hheader, frame, List.length_append, length_header]
  split
  . exact size_callAll_sendModifiedCalls env.lib env.cfg m.flags hsize mods
  . next hmodify =>
    rw [Bool.not_eq_true] at hmodify
    rw [(Modifiers.sealed_of_not_needsToModify env.lib hmodify mods _).left]
    exact hsize

theorem length_buf_loop (mods : Modifiers) (buf : List UInt8) (pos : Nat) :
    (loop env mods buf pos).buf.length = buf.length := by
  fun_induction loop env mods buf pos with
  | case1 mods buf pos hcall => rfl
  | case2 mods buf pos call hcall handled e hrc =>
    obtain ⟨hcall, -, hin⟩ := nextCall_eq_some hcall
    rw [length_buf_handle env hin, hcall]
  | case3 mods buf pos call hcall handled m hrc rest ih =>
    obtain ⟨hcall, -, hin⟩ := nextCall_eq_some hcall
    rw [ih, length_buf_handle env hin, hcall]

theorem size_callAll_onRecvCalls (p : BitsProtocol) (bytes : List UInt8) {e : Extent}
    (he : e.size = p.recvBuf.length) :
    (e.callAll initialSize (onRecvCalls env p bytes)).size
      = (onRecv env p bytes).protocol.recvBuf.length := by
  have hlen := @length_buf_loop _ env p.mods (p.recvBuf ++ bytes) 0
  have hblock := Extent.isSome_reserve initialSize e bytes.length
  have hsize := Extent.size_reserve initialSize e bytes.length
  unfold onRecvCalls onRecv
  split
  . exact he
  . dsimp only
    cases (loop env p.mods (p.recvBuf ++ bytes) 0).rc with
    | error failure => simp [Extent.callAll, Extent.call, Extent.append, hsize, he, hlen]
    | ok =>
      obtain ⟨capacity, hcapacity⟩ := Option.isSome_iff_exists.mp hblock
      simp only [Extent.callAll, Extent.call, Extent.append, Extent.popFront, List.foldl_cons,
        List.foldl_nil, hcapacity, hsize, he, List.length_drop, hlen, List.length_append]
      omega

/-!
### Both directions
-/

/--
`lens` are the lengths of the pieces in which the serializer writes the members of `m`.
-/
theorem calls_expected_iff (env : Env Body) (m : BitsMessage Body) {lens : List Nat}
    (hlens : lens.sum = (payload env m).length) (data : List UInt8) (p : BitsProtocol)
    {chunks : List (List UInt8)} (hchunks : ∀ bytes ∈ chunks, bytes ≠ []) (e : Extent) :
    let sent := sendCalls env.cfg m.flags lens
    (AllExpected initialSize sent.1 sent.2 ↔ ¬Extent.GrowthSize (m.pack env.codec).length)
      ∧ AllExpected initialSize {} (sendDataCalls env.cfg m.flags data.length)
      ∧ (AllExpected initialSize e (onRecvAllCalls env p chunks)
          ↔ AllStartWithFrame env p chunks) := by
  have hlen : (m.pack env.codec).length = headerLength + lens.sum := by
    rw [hlens]
    simp only [pack, payload, List.length_append, length_value4b]
  refine ⟨?_, sendDataCalls_expected _ _ _, onRecvAllCalls_expected_iff p hchunks e⟩
  rw [hlen]
  apply sendCalls_expected_iff

theorem calls_expected_iff_single :
    let env := Env.single 1 {}
    let m : BitsMessage fun _ => { xs : List UInt8 // xs.length = 1 } := ⟨1, {}, 0, 0, [7], rfl⟩
    let sent := sendCalls env.cfg m.flags [1]
    (AllExpected initialSize sent.1 sent.2 ↔ ¬Extent.GrowthSize (m.pack env.codec).length)
      ∧ AllExpected initialSize {} (sendDataCalls env.cfg m.flags [7].length)
      ∧ (AllExpected initialSize {} (onRecvAllCalls env onBind [[9, 0, 0, 0], [1, 0, 0, 0, 7]])
          ↔ AllStartWithFrame env onBind [[9, 0, 0, 0], [1, 0, 0, 0, 7]]) := by
  intro env m
  exact calls_expected_iff env m rfl [7] onBind (by decide) {}

-- A message with 120 bytes, which fills the buffer, and a frame that arrives in two chunks.
theorem exists_not_expected :
    (let env := Env.single 120 {}
      let m : BitsMessage fun _ => { xs : List UInt8 // xs.length = 120 } :=
        ⟨1, {}, 0, 0, List.replicate 120 7, List.length_replicate⟩
      let sent := sendCalls env.cfg m.flags [(payload env m).length]
      ¬AllExpected initialSize sent.1 sent.2)
      ∧ ¬AllExpected initialSize {}
        (onRecvAllCalls (Env.single 1 {}) onBind [[9, 0, 0, 0], [1, 0, 0, 0, 7]]) := by
  constructor
  . dsimp only
    rw [sendCalls_expected_iff, not_not]
    left
    simp [payload, Env.single, Bitsery.array]
  . rw [onRecvAllCalls_expected_iff _ (by decide)]
    unfold AllStartWithFrame
    dsimp only
    have hnot : ¬StartsWithFrame (onBind.recvBuf ++ [9, 0, 0, 0]) := by
      unfold StartsWithFrame
      decide
    split <;> simp [hnot]

end BitsProtocol
end Lax
