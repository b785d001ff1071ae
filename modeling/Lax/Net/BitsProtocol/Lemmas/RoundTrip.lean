import Lax.Net.BitsProtocol.Lemmas.Packetization
import Lax.Net.BitsProtocol.Lemmas.SendBuffer
import Lax.Net.BitsProtocol.Lemmas.WrongLength
import Mathlib.Data.List.Forall2

/-!
This module contains the proof that what a sender hands on arrives, for exactly the frame lengths
that the length field can say, which are those of a single byte.
-/

namespace Lax

open BitsMessage

variable {Body : UInt32 → Type}

namespace BitsMessage

theorem unpack_append_iff (codec : Bitsery Body) (cls : UInt32) (flags : Flags)
    {hdr : List UInt8} (body tail : List UInt8) (hhdr : hdr.length = headerLength)
    (hlt : headerLength + body.length < 2 ^ 63) (m : BitsMessage Body) :
    unpack codec cls flags (hdr ++ body ++ tail) 0 (headerLength + body.length) = some m ↔
      ∃ members, codec.deserialize cls body = some (members, [])
        ∧ m = ⟨cls, flags, getValue4b hdr 0, getValue4b hdr 4, members⟩ := by
  have hin : InRange (hdr ++ body ++ tail) 0 (headerLength + body.length) := by
    unfold InRange
    simp only [List.length_append, hhdr]
    omega
  have hread : Slice.read (hdr ++ body ++ tail) 0 (headerLength + body.length) = hdr ++ body := by
    rw [Slice.read_zero, ← hhdr, ← List.length_append, List.take_left]
  have hlen : ¬(hdr ++ body).length < headerLength := by
    simp only [List.length_append, hhdr]
    omega
  have hsize : headerLength = 8 := rfl
  have hdrop : (hdr ++ body).drop headerLength = body := List.drop_left' hhdr
  unfold unpack
  rw [if_neg (not_or.mpr ⟨by omega, (· hin)⟩), hread]
  dsimp only
  rw [if_neg hlen, hdrop, getValue4b_append hdr body 0 (by omega),
    getValue4b_append hdr body 4 (by omega)]
  constructor
  . intro h
    split at h
    . next members hdes =>
      injection h with h
      exact ⟨members, hdes, h.symm⟩
    . contradiction
  . intro ⟨members, hdes, hm⟩
    rw [hdes, hm]

-- What is deserialized from too few or too many bytes does not use up all of them.
theorem deserialize_of_differs (codec : Bitsery Body) (cls : UInt32) (sent : Body cls)
    {bytes : List UInt8} (h : Differs bytes (codec.serialize cls sent)) (body : Body cls) :
    codec.deserialize cls bytes ≠ some (body, []) := by
  intro hdes
  obtain ⟨hne, hprefix⟩ := h
  have hser := codec.deserialize_serialize cls sent
  rcases hprefix with ⟨more, hmore⟩ | ⟨more, hmore⟩
  . have happend := codec.deserialize_append cls bytes more body [] hdes
    rw [hmore, hser] at happend
    injection happend with happend
    injection happend with _ hnil
    rw [List.nil_append] at hnil
    rw [← hmore, ← hnil, List.append_nil] at hne
    exact hne rfl
  . have happend := codec.deserialize_append cls _ more sent [] hser
    rw [hmore, hdes] at happend
    injection happend with happend
    injection happend with _ hnil
    rw [List.nil_append] at hnil
    rw [← hmore, ← hnil, List.append_nil] at hne
    exact hne rfl

end BitsMessage

namespace BitsProtocol

variable (env : Env Body)

/-!
### Sending
-/

def payload (m : BitsMessage Body) : List UInt8 :=
  env.codec.serialize m.cls m.body

def header (cls : UInt32) (len : Nat) : List UInt8 :=
  lengthField len ++ value4b cls

def frame (mods : Modifiers) (m : BitsMessage Body) : List UInt8 :=
  let body := Modifiers.sealedBody env.lib env.cfg m.flags mods (payload env m)
  header m.cls (headerLength + body.length) ++ body

variable (cfg : Config) in
-- The length of the frame for a message of `n` bytes without its header.
def frameLength (flags : Flags) (n : Nat) : Nat :=
  let n := if cfg.enableSequence && flags.enableSequence then n + sequenceSize else n
  let n := if cfg.enableChecksum && flags.enableChecksum then n + checksumSize else n
  let n := if cfg.enableCipher && flags.enableCipher then n + Cipher.padSize n else n
  headerLength + n

theorem length_header (cls : UInt32) (len : Nat) : (header cls len).length = headerLength := rfl

theorem length_sealedBody (lib : Botan) (cfg : Config) (flags : Flags) (mods : Modifiers)
    {body : List UInt8} (hbody : body ≠ []) :
    headerLength + (Modifiers.sealedBody lib cfg flags mods body).length
      =
    frameLength cfg flags body.length := by
  have hsequenced := Modifiers.length_sequenced cfg flags mods body
  have hsequenced' := Modifiers.sequenced_ne_nil cfg flags mods hbody
  have hchecked := Modifiers.length_checked lib cfg flags hsequenced'
  have hchecked' := Modifiers.checked_ne_nil lib cfg flags hsequenced'
  unfold Modifiers.sealedBody frameLength
  rw [Modifiers.length_ciphered lib cfg flags _ hchecked', hchecked, hsequenced]

theorem length_frame (mods : Modifiers) {m : BitsMessage Body} (hpayload : payload env m ≠ []) :
    (frame env mods m).length = frameLength env.cfg m.flags (payload env m).length := by
  rw [← length_sealedBody env.lib _ _ mods hpayload]
  unfold frame
  rw [List.length_append, length_header]

theorem length_payload_le (m : BitsMessage Body) :
    headerLength + (payload env m).length
      ≤ frameLength env.cfg m.flags (payload env m).length := by
  unfold frameLength
  dsimp only
  split <;> split <;> split <;> omega

-- The modifiers add no more than a sequence number, a checksum and a block.
theorem frameLength_le (cfg : Config) (flags : Flags) (n : Nat) :
    frameLength cfg flags n ≤ headerLength + n + 21 := by
  have hsequence : sequenceSize = 1 := rfl
  have hchecksum : checksumSize = 4 := rfl
  have hpad : ∀ n, Cipher.padSize n ≤ 16 := fun n => Nat.sub_le _ _
  unfold frameLength
  dsimp only
  have := hpad n
  have := hpad (n + sequenceSize)
  have := hpad (n + checksumSize)
  have := hpad (n + sequenceSize + checksumSize)
  split <;> split <;> split <;> omega

theorem headerLength_lt_length_frame (mods : Modifiers) {m : BitsMessage Body}
    (hpayload : payload env m ≠ []) : headerLength < (frame env mods m).length := by
  have hpos := List.length_pos_iff.mpr hpayload
  rw [length_frame env mods hpayload]
  unfold frameLength
  dsimp only
  split <;> split <;> split <;> omega

theorem sendFinal_header (flags : Flags) (mods : Modifiers) (cls : UInt32) (body : List UInt8) :
    sendFinal env flags mods (header cls (headerLength + body.length) ++ body)
      =
    let sealedBody := Modifiers.sealedBody env.lib env.cfg flags mods body
    (header cls (headerLength + sealedBody.length) ++ sealedBody,
      Modifiers.sealedState env.lib env.cfg flags mods body) := by
  unfold sendFinal
  split
  . obtain ⟨hdr', hlayer, heq⟩ := @Modifiers.sendModified_append env.lib env.cfg flags _
      (length_header cls (headerLength + body.length)) mods body
    have htake := hlayer.take_eq (List.take_left' (length_lengthField _))
    have hdrop := hlayer.drop_eq.trans (List.drop_left' (length_lengthField _))
    rw [heq, ← List.take_append_drop 4 hdr', htake, hdrop]
    rfl
  . next hneeds =>
    obtain ⟨hbody, hstate⟩ := Modifiers.sealed_of_not_needsToModify env.lib (by simpa using hneeds)
      mods body
    dsimp only
    rw [hbody, hstate]

theorem length_pack (m : BitsMessage Body) :
    (m.pack env.codec).length = headerLength + (payload env m).length := by
  simp only [pack, payload, List.length_append, length_value4b]

theorem sendFinal_headed (mods : Modifiers) (m : BitsMessage Body) :
    sendFinal env m.flags mods (headed env m)
      =
    (frame env mods m, Modifiers.sealedState env.lib env.cfg m.flags mods (payload env m)) := by
  have hwrite : headed env m = header m.cls (headerLength + (payload env m).length) ++ payload env m := by
    rw [headed, length_pack, Slice.write_zero, length_lengthField, pack, List.append_assoc,
      List.drop_left' (length_value4b _), header, List.append_assoc]
    rfl
  rw [hwrite, sendFinal_header]
  rfl

-- The buffers do not matter to what is sent, and to whether anything is.
theorem sendPacked_eq_send (pieces : Pieces env.codec) (p : BitsProtocol) (m : BitsMessage Body)
    {pool : BufferPool} {others : List Nat} (hsound : pool.Sound others) :
    sendPacked env pieces false pool p m
      =
    match send env p.mods m with
    | .ok (bytes, mods) => some (.sent bytes { p with mods })
    | .error (.result rc) => some (.refused (.result rc))
    | .error _ => none := by
  have hlength := length_headed env m
  have hheader := BitsMessage.headerLength_le_length_pack env.codec m
  unfold send
  dsimp only
  rw [← hlength]
  rw [← hlength] at hheader
  rcases sendPacked_eq env pieces false p m hsound with ⟨hshort, hsend⟩ | ⟨hlong, hnone⟩
  . have hshort' : ¬longestPacked < (headed env m).length := Nat.not_lt_of_le hshort
    rw [if_neg hshort', if_neg (Nat.not_lt_of_le hheader), hsend, hlength]
    rfl
  . have hlong' : longestPacked < (headed env m).length := hlong
    rw [if_pos hlong', hnone]

theorem send_eq {mods : Modifiers} {m : BitsMessage Body}
    (hshort : headerLength + (payload env m).length ≤ longestPacked) :
    send env mods m
      =
    .ok (frame env mods m, Modifiers.sealedState env.lib env.cfg m.flags mods (payload env m)) := by
  have hlength := length_pack env m
  unfold send
  dsimp only
  rw [if_neg (by omega), if_neg (by omega), ← sendFinal_headed]
  rfl

/-!
### Receiving
-/

variable {env}

theorem nextCall_frame (mods receiver : Modifiers) (m : BitsMessage Body) (pre rest : List UInt8)
    (hpayload : payload env m ≠ []) :
    nextCall receiver (pre ++ (frame env mods m ++ rest)) pre.length
      =
    if (frame env mods m ++ rest).length < wireLength (frame env mods m).length then
      none
    else
      some ⟨m.cls, receiver, pre ++ (frame env mods m ++ rest), pre.length,
        wireLength (frame env mods m).length⟩ := by
  have hlen := headerLength_lt_length_frame env mods hpayload
  have hlength : getLength (frame env mods m ++ rest) 0 = wireLength (frame env mods m).length := by
    unfold getLength frame header
    rw [List.append_assoc, List.append_assoc, toNat_getValue4b_lengthField]
    simp only [List.length_append, length_lengthField, length_value4b]
  have htopic : getTopic (frame env mods m ++ rest) (0 + 4) = m.cls := by
    unfold getTopic frame header
    rw [List.append_assoc, List.append_assoc]
    rw [Nat.zero_add, ← length_lengthField (headerLength
      + (Modifiers.sealedBody env.lib env.cfg m.flags mods (payload env m)).length)]
    exact (getValue4b_shift _ _ 0).trans (getValue4b_value4b _ _)
  rw [nextCall_shift]
  unfold nextCall
  dsimp only
  rw [hlength, htopic, Nat.sub_zero, if_pos (by rw [List.length_append]; omega)]
  split <;> rfl

-- The message that is posted for `m`, up to the length that the frame had.
def Arrived (m posted : BitsMessage Body) : Prop :=
  { posted with length := 0 } = { m with length := 0, topic := m.cls }

theorem getValue4b_header (cls : UInt32) (len : Nat) : getValue4b (header cls len) 4 = cls := by
  have hshift := getValue4b_shift (lengthField len) (value4b cls ++ []) 0
  rw [List.append_nil, length_lengthField] at hshift
  exact hshift.trans (getValue4b_value4b cls [])

theorem handle_own_frame {sender receiver : Modifiers} (hstep : Modifiers.InStep sender receiver)
    {m : BitsMessage Body} (hcreate : env.create m.cls = some m.flags)
    (hlt : headerLength + (payload env m).length < 2 ^ 63) :
    let handled := handle env ⟨m.cls, receiver, frame env sender m, 0, (frame env sender m).length⟩
    (∃ posted, handled.rc = .ok posted ∧ Arrived m posted)
      ∧ Modifiers.InStep
        (Modifiers.sealedState env.lib env.cfg m.flags sender (payload env m)) handled.mods := by
  obtain ⟨hrc, hstep', tail, hbuf⟩ := @Modifiers.recvModified_sealed env.lib env.cfg m.flags _
    (length_header m.cls (frame env sender m).length) _ _ hstep (payload env m)
  have hframe : header m.cls (frame env sender m).length
      ++ Modifiers.sealedBody env.lib env.cfg m.flags sender (payload env m)
        = frame env sender m := by
    unfold frame
    rw [List.length_append, length_header]
  have hunpack := (unpack_append_iff env.codec m.cls m.flags (payload env m) tail
    (length_header m.cls (frame env sender m).length) hlt _).mpr
      ⟨m.body, env.codec.deserialize_serialize m.cls m.body, rfl⟩
  rw [hframe] at hrc hstep' hbuf
  rw [← hbuf] at hunpack
  unfold handle
  dsimp only
  rw [hcreate]
  dsimp only
  rw [hrc]
  dsimp only
  rw [hunpack, getValue4b_header]
  exact ⟨⟨_, rfl, rfl⟩, hstep'⟩

theorem handle_frame {sender receiver : Modifiers} (hstep : Modifiers.InStep sender receiver)
    {m : BitsMessage Body} (hcreate : env.create m.cls = some m.flags) (pre rest : List UInt8)
    (hlt : headerLength + (payload env m).length < 2 ^ 63) :
    let handled := handle env ⟨m.cls, receiver, pre ++ (frame env sender m ++ rest), pre.length,
      (frame env sender m).length⟩
    (∃ posted, handled.rc = .ok posted ∧ Arrived m posted)
      ∧ Modifiers.InStep
        (Modifiers.sealedState env.lib env.cfg m.flags sender (payload env m)) handled.mods
      ∧ ∃ buf, handled.buf = pre ++ buf ++ rest ∧ buf.length = (frame env sender m).length := by
  have hpos : 0 < (frame env sender m).length := by
    unfold frame
    rw [List.length_append, length_header]
    exact Nat.lt_of_lt_of_le (by decide) (Nat.le_add_right _ _)
  have hown := @dependsOnOwnBytes_of_sequence _ env m.cls (frame env sender m).length
    (fun _ _ _ => hpos) receiver pre (frame env sender m) rest rfl
  have hbuf := @length_buf_handle _ env
    ⟨m.cls, receiver, frame env sender m, 0, (frame env sender m).length⟩
    (Nat.le_of_eq (Nat.zero_add _))
  obtain ⟨hposted, hstep'⟩ := handle_own_frame hstep hcreate hlt
  rw [← List.append_assoc]
  dsimp only
  rw [hown]
  exact ⟨hposted, hstep', _, rfl, hbuf⟩

theorem handle_own_of_ne {sender receiver : Modifiers} (hstep : Modifiers.InStep sender receiver)
    {m : BitsMessage Body} (hcreate : env.create m.cls = some m.flags)
    (hpayload : payload env m ≠ []) {taken rest : List UInt8} {len : Nat}
    (htaken : taken <+: Modifiers.sealedBody env.lib env.cfg m.flags sender (payload env m) ++ rest)
    (hlen : taken.length
      ≠ (Modifiers.sealedBody env.lib env.cfg m.flags sender (payload env m)).length)
    (posted : BitsMessage Body) :
    (handle env ⟨m.cls, receiver, header m.cls len ++ taken, 0, headerLength + taken.length⟩).rc
      ≠ .ok posted := by
  intro h
  unfold handle at h
  dsimp only at h
  rw [hcreate] at h
  dsimp only at h
  split at h
  . contradiction
  . next finalLen hrc =>
    split at h
    . contradiction
    . next posted' hunpack =>
      obtain ⟨hge, hlt⟩ := unpack_eq_some hunpack
      rw [← List.append_nil (header m.cls len ++ taken)] at hrc hunpack
      obtain ⟨body', tail', rfl, hbuf, hdiffers⟩ := Modifiers.recvModified_differs
        (length_header m.cls len) hstep hpayload htaken hlen hrc hge
      rw [hbuf] at hunpack
      obtain ⟨members, hdes, -⟩ := (unpack_append_iff env.codec m.cls m.flags body' tail'
        (length_header m.cls len) hlt posted').mp hunpack
      exact deserialize_of_differs env.codec m.cls m.body hdiffers members hdes

-- A frame that the receiver cuts in the wrong place is never accepted.
theorem handle_of_ne {sender receiver : Modifiers} (hstep : Modifiers.InStep sender receiver)
    {m : BitsMessage Body} (hcreate : env.create m.cls = some m.flags) (pre rest : List UInt8)
    (hpayload : payload env m ≠ []) {len : Nat} (hlen : len ≠ (frame env sender m).length)
    (hle : len ≤ (frame env sender m ++ rest).length) (posted : BitsMessage Body) :
    (handle env ⟨m.cls, receiver, pre ++ (frame env sender m ++ rest), pre.length, len⟩).rc
      ≠ .ok posted := by
  intro hrc
  have hge : headerLength ≤ len := by
    refine headerLength_le_of_handle env ?_ hrc
    unfold InRange
    rw [List.length_append]
    dsimp only
    omega
  have hheader : headerLength = 8 := rfl
  generalize hsealed : Modifiers.sealedBody env.lib env.cfg m.flags sender (payload env m) = sealedBody
  have hframe : frame env sender m = header m.cls (headerLength + sealedBody.length) ++ sealedBody := by
    unfold frame
    rw [hsealed]
  have hsplit : frame env sender m ++ rest
      = header m.cls (headerLength + sealedBody.length) ++ (sealedBody ++ rest).take (len - headerLength)
        ++ (sealedBody ++ rest).drop (len - headerLength) := by
    rw [hframe, List.append_assoc, List.append_assoc, List.take_append_drop]
  rw [hframe] at hlen hle
  simp only [List.length_append, length_header] at hlen hle
  have htake : ((sealedBody ++ rest).take (len - headerLength)).length = len - headerLength := by
    rw [List.length_take, List.length_append]
    omega
  have hprefix := List.take_prefix (len - headerLength) (sealedBody ++ rest)
  have hsize : len = headerLength + ((sealedBody ++ rest).take (len - headerLength)).length := by
    omega
  generalize (sealedBody ++ rest).take (len - headerLength) = taken at *
  generalize (sealedBody ++ rest).drop (len - headerLength) = post at *
  subst hsize
  have hown := @dependsOnOwnBytes_of_sequence _ env m.cls (headerLength + taken.length)
    (fun _ _ _ => by omega) receiver pre (header m.cls (headerLength + sealedBody.length) ++ taken)
    post (by rw [List.length_append, length_header])
  rw [hsplit, ← List.append_assoc, hown] at hrc
  subst hsealed
  exact handle_own_of_ne hstep hcreate hpayload hprefix (by omega) posted hrc

variable (env) in
def wire (mods : Modifiers) : List (BitsMessage Body) → List UInt8
  | [] => []
  | m :: ms =>
    frame env mods m
      ++ wire (Modifiers.sealedState env.lib env.cfg m.flags mods (payload env m)) ms

structure LoopDelivers (ms : List (BitsMessage Body)) (l : Loop Body) : Prop where
  rc : l.rc = .ok ()
  posted : List.Forall₂ Arrived ms l.posted
  rest : l.buf.drop l.processedLen = []

theorem loopDelivers_cons_iff {m posted : BitsMessage Body} (harrived : Arrived m posted)
    (ms : List (BitsMessage Body)) (call : Call) (l : Loop Body) :
    LoopDelivers (m :: ms) { l with posted := posted :: l.posted, calls := call :: l.calls }
      ↔ LoopDelivers ms l := by
  constructor
  . intro ⟨hrc, hposted, hrest⟩
    cases hposted with
    | cons _ hposted => exact ⟨hrc, hposted, hrest⟩
  . intro ⟨hrc, hposted, hrest⟩
    exact ⟨hrc, .cons harrived hposted, hrest⟩

theorem not_loopDelivers {sender receiver : Modifiers} (hstep : Modifiers.InStep sender receiver)
    {m : BitsMessage Body} (hcreate : env.create m.cls = some m.flags) (pre rest : List UInt8)
    (hpayload : payload env m ≠ [])
    (hne : wireLength (frame env sender m).length ≠ (frame env sender m).length)
    (ms : List (BitsMessage Body)) :
    ¬LoopDelivers (m :: ms) (loop env receiver (pre ++ (frame env sender m ++ rest)) pre.length) := by
  have hcall := nextCall_frame sender receiver m pre rest hpayload
  intro ⟨hrc, hposted, _⟩
  split at hcall
  . rw [loop_none hcall] at hposted
    cases hposted
  . next hle =>
    cases hhandle : (handle env ⟨m.cls, receiver, pre ++ (frame env sender m ++ rest), pre.length,
        wireLength (frame env sender m).length⟩).rc with
    | error e =>
      rw [loop_error hcall hhandle] at hrc
      contradiction
    | ok posted =>
      exact handle_of_ne hstep hcreate pre rest hpayload hne (by omega) posted hhandle

theorem loopDelivers_iff {sender receiver : Modifiers} (hstep : Modifiers.InStep sender receiver)
    (ms : List (BitsMessage Body)) (hcreate : ∀ m ∈ ms, env.create m.cls = some m.flags)
    (hpayload : ∀ m ∈ ms, payload env m ≠ [])
    (hlt : ∀ m ∈ ms, frameLength env.cfg m.flags (payload env m).length < 2 ^ 16) (pre : List UInt8) :
    LoopDelivers ms (loop env receiver (pre ++ wire env sender ms) pre.length)
      ↔ ∀ m ∈ ms, frameLength env.cfg m.flags (payload env m).length < 256 := by
  induction ms generalizing sender receiver pre with
  | nil =>
    have hcall : nextCall receiver (pre ++ []) pre.length = none := nextCall_shift receiver pre []
    unfold wire
    rw [loop_none hcall]
    constructor
    . intro _ m hm
      cases hm
    . intro _
      refine ⟨rfl, .nil, ?_⟩
      rw [List.append_nil, List.drop_length]
  | cons m ms ih =>
    have hcreate' := hcreate m List.mem_cons_self
    have hpayload' := hpayload m List.mem_cons_self
    have hlength := length_frame env sender hpayload'
    have hlt' := hlt m List.mem_cons_self
    rw [← hlength] at hlt'
    have hfits := wireLength_eq_iff hlt'
    rw [hlength] at hfits
    rw [List.forall_mem_cons, ← hfits, ← hlength]
    unfold wire
    by_cases hne : wireLength (frame env sender m).length = (frame env sender m).length
    . have hcall := nextCall_frame sender receiver m pre
        (wire env (Modifiers.sealedState env.lib env.cfg m.flags sender (payload env m)) ms) hpayload'
      rw [hne, if_neg (by rw [List.length_append]; omega)] at hcall
      have hsmall : headerLength + (payload env m).length < 2 ^ 63 := by
        have hle := length_payload_le env m
        omega
      obtain ⟨⟨posted, hrc, harrived⟩, hstep', buf, hbuf, hlen⟩ := handle_frame hstep hcreate' pre
        (wire env (Modifiers.sealedState env.lib env.cfg m.flags sender (payload env m)) ms) hsmall
      have hpos : pre.length + (frame env sender m).length = (pre ++ buf).length := by
        rw [List.length_append, hlen]
      rw [loop_ok hcall hrc]
      dsimp only
      rw [hbuf, hpos, loopDelivers_cons_iff harrived,
        ih hstep' (fun m hm => hcreate m (List.mem_cons_of_mem _ hm))
          (fun m hm => hpayload m (List.mem_cons_of_mem _ hm))
          (fun m hm => hlt m (List.mem_cons_of_mem _ hm))]
      exact ⟨fun h => ⟨hne, h⟩, And.right⟩
    . constructor
      . intro h
        exact absurd h (not_loopDelivers hstep hcreate' pre _ hpayload' hne ms)
      . intro h
        exact absurd h.1 hne

/-!
### End to end
-/

variable (env) in
-- One message after the other. The buffer of each comes from the pool as it is then.
def sendPackedAll (pieces : Pieces env.codec) (p : BitsProtocol) :
    List (BufferPool × BitsMessage Body) → Option (List UInt8)
  | [] => some []
  | (pool, m) :: sends =>
    match sendPacked env pieces false pool p m with
    | some (.sent bytes p) => (sendPackedAll pieces p sends).map (bytes ++ ·)
    | _ => none

variable (env) in
def RoundTrips (pieces : Pieces env.codec) (sender : BitsProtocol) (receiver : Modifiers)
    (sends : List (BufferPool × BitsMessage Body)) : Prop :=
  ∃ bytes, sendPackedAll env pieces sender sends = some bytes
    ∧ (onRecv env ⟨[], receiver⟩ bytes).rc = .ok ()
    ∧ List.Forall₂ Arrived (sends.map Prod.snd) (onRecv env ⟨[], receiver⟩ bytes).posted
    ∧ (onRecv env ⟨[], receiver⟩ bytes).protocol.recvBuf = []

theorem sendPackedAll_eq_some_iff (pieces : Pieces env.codec) {sender : BitsProtocol}
    {sends : List (BufferPool × BitsMessage Body)}
    (hsound : ∀ send ∈ sends, ∃ others, send.1.Sound others) {bytes : List UInt8} :
    sendPackedAll env pieces sender sends = some bytes
      ↔ (∀ send ∈ sends, headerLength + (payload env send.2).length ≤ longestPacked)
        ∧ bytes = wire env sender.mods (sends.map Prod.snd) := by
  induction sends generalizing sender bytes with
  | nil =>
    constructor
    . intro h
      injection h with h
      exact ⟨List.forall_mem_nil _, h.symm⟩
    . intro ⟨_, h⟩
      rw [h]
      rfl
  | cons send sends ih =>
    obtain ⟨pool, m⟩ := send
    rw [List.forall_mem_cons] at hsound ⊢
    obtain ⟨⟨others, hsound⟩, hrest⟩ := hsound
    have hlength := (length_headed env m).trans (length_pack env m)
    unfold sendPackedAll
    rcases sendPacked_eq env pieces false sender m hsound with ⟨hshort, hsend⟩ | ⟨hlong, hnone⟩
    . have hshort' : headerLength + (payload env m).length ≤ longestPacked := hlength ▸ hshort
      rw [hsend, sendFinal_headed, and_iff_right hshort', List.map_cons, wire]
      dsimp only [passOn]
      rw [if_neg Bool.false_ne_true]
      dsimp only
      rw [Option.map_eq_some_iff]
      constructor
      . intro ⟨rest, hsent, hbytes⟩
        obtain ⟨hall, rfl⟩ := (ih hrest).mp hsent
        exact ⟨hall, hbytes.symm⟩
      . intro ⟨hall, hbytes⟩
        exact ⟨_, (ih hrest).mpr ⟨hall, rfl⟩, hbytes.symm⟩
    . have hlong' : ¬headerLength + (payload env m).length ≤ longestPacked :=
        Nat.not_le_of_lt (hlength ▸ hlong)
      rw [hnone]
      constructor
      . intro h
        contradiction
      . intro h
        exact absurd h.1.1 hlong'

theorem onRecv_delivers_iff (receiver : Modifiers) {bytes : List UInt8} (hbytes : bytes ≠ [])
    (ms : List (BitsMessage Body)) :
    ((onRecv env ⟨[], receiver⟩ bytes).rc = .ok ()
      ∧ List.Forall₂ Arrived ms (onRecv env ⟨[], receiver⟩ bytes).posted
      ∧ (onRecv env ⟨[], receiver⟩ bytes).protocol.recvBuf = [])
    ↔ LoopDelivers ms (loop env receiver bytes 0) := by
  unfold onRecv
  rw [if_neg hbytes, List.nil_append]
  dsimp only
  cases hrc : (loop env receiver bytes 0).rc with
  | error e =>
    constructor
    . intro h
      exact nomatch h.1
    . intro h
      exact nomatch hrc.symm.trans h.rc
  | ok u =>
    constructor
    . intro ⟨_, hposted, hrest⟩
      exact ⟨hrc, hposted, hrest⟩
    . intro ⟨_, hposted, hrest⟩
      exact ⟨rfl, hposted, hrest⟩

theorem roundTrips_iff_loopDelivers (pieces : Pieces env.codec) {sender : BitsProtocol}
    {receiver : Modifiers} {sends : List (BufferPool × BitsMessage Body)}
    (hsound : ∀ send ∈ sends, ∃ others, send.1.Sound others)
    (hwire : wire env sender.mods (sends.map Prod.snd) ≠ []) :
    RoundTrips env pieces sender receiver sends
      ↔ (∀ send ∈ sends, headerLength + (payload env send.2).length ≤ longestPacked)
        ∧ LoopDelivers (sends.map Prod.snd)
          (loop env receiver (wire env sender.mods (sends.map Prod.snd)) 0) := by
  rw [← onRecv_delivers_iff receiver hwire]
  constructor
  . intro ⟨bytes, hsend, h⟩
    obtain ⟨hshort, rfl⟩ := (sendPackedAll_eq_some_iff pieces hsound).mp hsend
    exact ⟨hshort, h⟩
  . intro ⟨hshort, h⟩
    exact ⟨_, (sendPackedAll_eq_some_iff pieces hsound).mpr ⟨hshort, rfl⟩, h⟩

theorem wire_ne_nil {sender : Modifiers} {m : BitsMessage Body} (ms : List (BitsMessage Body))
    (hpayload : payload env m ≠ []) : wire env sender (m :: ms) ≠ [] := by
  have := headerLength_lt_length_frame env sender hpayload
  unfold wire
  apply List.append_ne_nil_of_left_ne_nil
  rw [← List.length_pos_iff]
  omega

theorem not_roundTrips_nil (pieces : Pieces env.codec) (sender : BitsProtocol)
    (receiver : Modifiers) : ¬RoundTrips env pieces sender receiver [] := by
  intro ⟨bytes, hsend, hrc, _⟩
  injection hsend with hbytes
  rw [← hbytes] at hrc
  contradiction

/--
What is sent is posted if and only if the frames are so short that the length field is right.
-/
theorem roundTrips_iff (env : Env Body) (pieces : Pieces env.codec) {sender : BitsProtocol}
    {receiver : Modifiers} (hstep : Modifiers.InStep sender.mods receiver)
    (sends : List (BufferPool × BitsMessage Body))
    (hsound : ∀ send ∈ sends, ∃ others, send.1.Sound others)
    (hcreate : ∀ send ∈ sends, env.create send.2.cls = some send.2.flags)
    (hpayload : ∀ send ∈ sends, payload env send.2 ≠ []) :
    RoundTrips env pieces sender receiver sends
      ↔ sends ≠ []
        ∧ ∀ send ∈ sends, frameLength env.cfg send.2.flags (payload env send.2).length < 256 := by
  cases sends with
  | nil =>
    constructor
    . intro h
      exact absurd h (not_roundTrips_nil pieces sender receiver)
    . intro h
      exact absurd rfl h.1
  | cons send sends =>
    have hwire := @wire_ne_nil _ env sender.mods _ (sends.map Prod.snd)
      (hpayload send List.mem_cons_self)
    have hloop := @loopDelivers_iff _ env _ _ hstep ((send :: sends).map Prod.snd)
      (List.forall_mem_map.mpr hcreate) (List.forall_mem_map.mpr hpayload)
    rw [List.forall_mem_map, List.forall_mem_map] at hloop
    rw [roundTrips_iff_loopDelivers pieces hsound hwire, and_iff_right (List.cons_ne_nil _ _)]
    constructor
    . intro ⟨hshort, hdelivers⟩
      refine (hloop ?_ []).mp hdelivers
      intro send hsend
      have hle := frameLength_le env.cfg send.2.flags (payload env send.2).length
      have hle' : _ ≤ 16384 := hshort send hsend
      omega
    . intro hlt
      refine ⟨?_, (hloop (fun send hsend => Nat.lt_trans (hlt send hsend) (by decide)) []).mpr hlt⟩
      intro send hsend
      have hle := length_payload_le env send.2
      have hlt := hlt send hsend
      change _ ≤ 16384
      omega

theorem roundTrips_iff_short :
    let env := Env.single 1 { enableSequence := true }
    let m : BitsMessage _ := ⟨1, { enableSequence := true }, 0, 0, ⟨[7], rfl⟩⟩
    RoundTrips env (Pieces.whole env.codec) onBind Modifiers.onBind
      [(BufferPool.init, m), (BufferPool.init, m)] :=
  (roundTrips_iff (Env.single 1 { enableSequence := true }) (Pieces.whole _)
    (show Modifiers.InStep onBind.mods Modifiers.onBind from Modifiers.inStep_onBind) _
    (by simp; exact ⟨_, BufferPool.sound_init⟩)
    (by simp [Env.single]) (by simp [payload, Env.single, Bitsery.array])).mpr
      ⟨by simp, by simp; decide⟩

-- A frame of 256 bytes claims to have 16843008.
theorem not_roundTrips_256 :
    let env := Env.single 248 {}
    let m : BitsMessage _ := ⟨1, {}, 0, 0, ⟨List.replicate 248 0, rfl⟩⟩
    env.create m.cls = some m.flags
      ∧ payload env m ≠ []
      ∧ frameLength env.cfg m.flags (payload env m).length = 256
      ∧ ¬RoundTrips env (Pieces.whole env.codec) onBind Modifiers.onBind [(BufferPool.init, m)] := by
  intro env m
  have hlen : (payload env m).length = 248 := List.length_replicate
  have hpayload : payload env m ≠ [] := by
    rw [← List.length_pos_iff, hlen]
    decide
  have hlength : frameLength env.cfg m.flags (payload env m).length = 256 := by
    rw [hlen]
    rfl
  refine ⟨rfl, hpayload, hlength, ?_⟩
  have hne : wireLength (frame env Modifiers.onBind m).length
      ≠ (frame env Modifiers.onBind m).length := by
    rw [length_frame _ _ hpayload, hlength]
    decide
  rw [roundTrips_iff_loopDelivers _ (List.forall_mem_singleton.mpr ⟨_, BufferPool.sound_init⟩)
    (wire_ne_nil [] hpayload)]
  intro h
  exact not_loopDelivers Modifiers.inStep_onBind rfl [] [] hpayload hne [] h.2

end BitsProtocol

end Lax
