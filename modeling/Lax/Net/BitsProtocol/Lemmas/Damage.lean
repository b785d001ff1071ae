import Lax.Net.Link.Lemmas.Prefix
import Lax.Util.Botan.Impl.Amalgamation

/-!
This module contains what happens to a frame with a checksum whose bytes change on the way: it is
rejected, and what was sent before it has arrived.
-/

namespace Lax

open BitsMessage

namespace Modifiers

variable {lib : Botan} {cfg : Config} {flags : Flags}

theorem recvModified_wrong_crc {hdr body crc : List UInt8} (mods : Modifiers)
    (hhdr : hdr.length = headerLength) (hcrc : crc.length = checksumSize)
    (hplain : (cfg.enableCipher && flags.enableCipher) = false)
    (hchecked : (cfg.enableChecksum && flags.enableChecksum) = true) (hne : crc ≠ lib.crc32 body) :
    let r := recvModified lib cfg flags mods (hdr ++ body ++ crc) 0
      (headerLength + body.length + checksumSize)
    r.rc = .error (.result .failIncorrectChecksum) ∧ r.state = mods := by
  intro r
  have hchecksum := Checksum.onRecv_append lib hdr body crc hhdr hcrc
  rw [if_neg hne] at hchecksum
  have hafter : (afterChecksum lib cfg flags mods (hdr ++ body ++ crc) 0
        (headerLength + body.length + checksumSize)).rc
          = .error (.result .failIncorrectChecksum)
      ∧ (afterChecksum lib cfg flags mods (hdr ++ body ++ crc) 0
        (headerLength + body.length + checksumSize)).state = mods := by
    unfold afterChecksum afterCipher
    rw [hplain, Received.andThen_false, hchecked, Received.andThen_true rfl]
    exact ⟨hchecksum, rfl⟩
  have hr : r = afterChecksum lib cfg flags mods (hdr ++ body ++ crc) 0
      (headerLength + body.length + checksumSize) :=
    (recvModified_eq lib cfg flags mods _ 0 _).trans (Received.andThen_error hafter.1 _ _)
  rw [hr]
  exact hafter

end Modifiers

namespace BitsProtocol

variable {Body : UInt32 → Type} (env : Env Body)

-- The checksum is in the frame as it is, and not under a cipher.
structure Checked (m : BitsMessage Body) : Prop where
  checksum : (env.cfg.enableChecksum && m.flags.enableChecksum) = true
  plain : (env.cfg.enableCipher && m.flags.enableCipher) = false

-- What the checksum of a frame is computed from.
def hashed (mods : Modifiers) (m : BitsMessage Body) : List UInt8 :=
  Modifiers.sequenced env.cfg m.flags mods (payload env m)

-- The frame of `m` after the hashed bytes in it have become `body`.
def damagedFrame (mods : Modifiers) (m : BitsMessage Body) (body : List UInt8) : List UInt8 :=
  header m.cls (frame env mods m).length ++ body ++ env.lib.crc32 (hashed env mods m)

variable {env}

theorem Checked.frame_eq {m : BitsMessage Body} (h : Checked env m) (hpayload : payload env m ≠ [])
    (mods : Modifiers) : frame env mods m = damagedFrame env mods m (hashed env mods m) := by
  have hbody := Modifiers.sequenced_ne_nil env.cfg m.flags mods hpayload
  have hsealed : Modifiers.sealedBody env.lib env.cfg m.flags mods (payload env m)
      = hashed env mods m ++ env.lib.crc32 (hashed env mods m) := by
    unfold Modifiers.sealedBody Modifiers.ciphered Modifiers.checked hashed
    simp only [h.plain, h.checksum, hbody, Bool.false_eq_true, false_and, if_false, true_and,
      ne_eq, not_false_eq_true, if_true]
  have hlen : (frame env mods m).length = headerLength
      + (Modifiers.sealedBody env.lib env.cfg m.flags mods (payload env m)).length := by
    unfold frame
    rw [List.length_append, length_header]
  rw [damagedFrame, hlen, frame, hsealed, List.append_assoc]

theorem nextCall_congr {mods : Modifiers} {hdr xs ys : List UInt8} {call : Call}
    (hhdr : hdr.length = headerLength) (hlen : xs.length = ys.length)
    (h : nextCall mods (hdr ++ xs) 0 = some call) :
    nextCall mods (hdr ++ ys) 0 = some { call with buf := hdr ++ ys } := by
  have hheader : headerLength = 8 := rfl
  have hlength : ∀ zs, getLength (hdr ++ zs) 0 = getLength hdr 0 := fun zs =>
    congrArg UInt32.toNat (getValue4b_append hdr zs 0 (by omega))
  have htopic : ∀ zs, getTopic (hdr ++ zs) (0 + 4) = getTopic hdr (0 + 4) := fun zs =>
    getValue4b_append hdr zs 4 (by omega)
  obtain ⟨rfl, hpos, hin⟩ := nextCall_eq_some h
  have hrange : 0 + getLength (hdr ++ xs) 0 ≤ (hdr ++ xs).length := hin
  unfold nextCall
  dsimp only
  rw [hlength, htopic, hlength, htopic]
  rw [hlength] at hrange
  rw [List.length_append] at hpos hrange ⊢
  rw [if_pos (by omega), if_neg (by omega)]

theorem Checked.length_damagedFrame {m : BitsMessage Body} (h : Checked env m)
    (hpayload : payload env m ≠ []) (mods : Modifiers) {body : List UInt8}
    (hlen : body.length = (hashed env mods m).length) :
    (damagedFrame env mods m body).length = (frame env mods m).length := by
  rw [h.frame_eq hpayload, damagedFrame, damagedFrame]
  simp only [List.length_append, length_header, hlen]

theorem nextCall_damaged {m : BitsMessage Body} (h : Sendable env m) (hchecked : Checked env m)
    (sender receiver : Modifiers) {body : List UInt8}
    (hlen : body.length = (hashed env sender m).length) (rest : List UInt8) :
    nextCall receiver (damagedFrame env sender m body ++ rest) 0
      = some ⟨m.cls, receiver, damagedFrame env sender m body ++ rest, 0,
        (frame env sender m).length⟩ := by
  have hsplit : ∀ body, damagedFrame env sender m body ++ rest
      = header m.cls (frame env sender m).length
        ++ (body ++ (env.lib.crc32 (hashed env sender m) ++ rest)) := by
    intro body
    rw [damagedFrame, List.append_assoc, List.append_assoc]
  have hwhole := h.nextCall sender receiver rest
  have hframe : frame env sender m ++ rest = _ :=
    (congrArg (· ++ rest) (hchecked.frame_eq h.payload sender)).trans (hsplit _)
  rw [hframe] at hwhole
  rw [hsplit]
  exact nextCall_congr (length_header _ _) (by simp [hlen]) hwhole

-- An error in the hashed bytes that the checksum cannot miss.
theorem nextFrame_damaged (hcrc : env.lib.crc32 = Crc32.hash) {m : BitsMessage Body}
    (h : Sendable env m) (hchecked : Checked env m) (sender receiver : Modifiers)
    {body : List UInt8} (hdamaged : Crc32.Damaged (hashed env sender m) body) (rest : List UInt8) :
    nextFrame env receiver (damagedFrame env sender m body ++ rest)
      = .stop (m.cls, (frame env sender m).length) (.result .failIncorrectChecksum) receiver := by
  have hlen := hchecked.length_damagedFrame h.payload sender hdamaged.length_eq
  have hsize : (frame env sender m).length = headerLength + body.length + checksumSize := by
    rw [← hlen, damagedFrame]
    simp only [List.length_append, length_header, env.lib.length_crc32]
  have hown : Call.own ⟨m.cls, receiver, damagedFrame env sender m body ++ rest, 0,
        (frame env sender m).length⟩
      = ⟨m.cls, receiver, damagedFrame env sender m body, 0, (frame env sender m).length⟩ := by
    unfold Call.own
    rw [Slice.read_zero, ← hlen, List.take_left]
  have hwrong : env.lib.crc32 (hashed env sender m) ≠ env.lib.crc32 body := by
    rw [hcrc]
    exact (Crc32.hash_ne_of_damaged hdamaged).symm
  obtain ⟨hrc, hstate⟩ := Modifiers.recvModified_wrong_crc receiver
    (length_header m.cls (frame env sender m).length) (env.lib.length_crc32 _) hchecked.plain
    hchecked.checksum hwrong
  rw [← hsize] at hrc hstate
  unfold nextFrame
  rw [nextCall_damaged h hchecked sender receiver hdamaged.length_eq rest]
  dsimp only
  rw [hown]
  unfold handle
  dsimp only
  rw [h.create]
  dsimp only
  rw [damagedFrame, hrc]
  dsimp only
  rw [hstate]
  rfl

variable (env) in
structure Stops (ms : List (BitsMessage Body))
    (r : FrameParser.Run UInt8 Modifiers (UInt32 × Nat) (BitsMessage Body) Failure) : Prop where
  rc : r.rc = .error (.result .failIncorrectChecksum)
  own : AllOwn env r.keys
  posted : List.Forall₂ Arrived ms r.msgs

theorem stops_of_damaged (hcrc : env.lib.crc32 = Crc32.hash) {sender receiver : Modifiers}
    (hstep : Modifiers.InStep sender receiver) {ms : List (BitsMessage Body)}
    (hms : ∀ m ∈ ms, Sendable env m) {m : BitsMessage Body} (h : Sendable env m)
    (hchecked : Checked env m) {body : List UInt8}
    (hdamaged : Crc32.Damaged (hashed env (after env sender ms) m) body) (rest : List UInt8) :
    Stops env ms ((frames env).run receiver
      (wire env sender ms ++ (damagedFrame env (after env sender ms) m body ++ rest))) := by
  have howned : ∀ {mods : Modifiers} {m : BitsMessage Body}, Sendable env m →
      DependsOnOwnBytes env m.cls (frame env mods m).length := by
    intro mods m h
    apply dependsOnOwnBytes_of_sequence
    intro _ _ _
    exact Nat.lt_of_le_of_lt (Nat.zero_le _) (headerLength_lt_length_frame env mods h.payload)
  induction ms generalizing sender receiver with
  | nil =>
    have hnext := nextFrame_damaged hcrc h hchecked sender receiver hdamaged rest
    refine ⟨?_, ?_, ?_⟩
    all_goals rw [wire, List.nil_append, after, FrameParser.run_stop hnext]
    . exact List.forall_mem_singleton.mpr (howned h)
    . exact .nil
  | cons m' ms ih =>
    rw [List.forall_mem_cons] at hms
    obtain ⟨posted, receiver', hnext, harrived, hstep'⟩ := nextFrame_frame hstep hms.1
      (wire env (Modifiers.sealedState env.lib env.cfg m'.flags sender (payload env m')) ms
        ++ (damagedFrame env (after env sender (m' :: ms)) m body ++ rest))
    obtain ⟨hrc, hown, hposted⟩ := ih hstep' hms.2 hdamaged
    rw [wire, List.append_assoc, FrameParser.run_frame hnext, List.drop_left]
    exact ⟨hrc, List.forall_mem_cons.mpr ⟨howned hms.1, hown⟩, .cons harrived hposted⟩

/--
However the stream is cut into packets.
-/
theorem onRecvAll_of_damaged (env : Env Body) (hcrc : env.lib.crc32 = Crc32.hash)
    {sender receiver : Modifiers} (hstep : Modifiers.InStep sender receiver)
    {ms : List (BitsMessage Body)} (hms : ∀ m ∈ ms, Sendable env m) {m : BitsMessage Body}
    (h : Sendable env m) (hchecked : Checked env m) {body : List UInt8}
    (hdamaged : Crc32.Damaged (hashed env (after env sender ms) m) body)
    {chunks : List (List UInt8)} (hchunks : ∀ chunk ∈ chunks, chunk ≠ []) {rest : List UInt8}
    (hbytes : chunks.flatten
      = wire env sender ms ++ (damagedFrame env (after env sender ms) m body ++ rest)) :
    (onRecvAll env ⟨[], receiver⟩ chunks).rc = .error (.result .failIncorrectChecksum)
      ∧ List.Forall₂ Arrived ms (onRecvAll env ⟨[], receiver⟩ chunks).posted := by
  obtain ⟨hrc, hown, hposted⟩ := stops_of_damaged hcrc hstep hms h hchecked hdamaged rest
  rw [← hbytes] at hrc hown hposted
  cases chunks with
  | nil =>
    rw [List.flatten_nil, FrameParser.run_wait rfl] at hrc
    contradiction
  | cons chunk chunks =>
    have hagree := (frames env).feed_cons receiver [] chunk chunks
    have hparts := onRecvAll_simulates ⟨[], receiver⟩ (chunk :: chunks) hchunks
      (hagree.keys ▸ hown)
    refine ⟨hparts.rc.trans (hagree.rc.trans hrc), ?_⟩
    rw [hparts.posted, hagree.msgs]
    exact hposted

def checkedFlags : Flags :=
  { enableChecksum := true }

def checkedEnv : Env fun _ => { xs : List UInt8 // xs.length = 1 } :=
  { Env.single 1 checkedFlags with lib := Botan.amalgamation 64 }

def checkedMessage : BitsMessage fun _ => { xs : List UInt8 // xs.length = 1 } :=
  ⟨1, checkedFlags, 0, 0, ⟨[5], rfl⟩⟩

-- The header of the damaged frame comes with the frame before it, and what follows is in a packet with its
-- body.
def damagedPackets : List (List UInt8) :=
  let sender := after checkedEnv Modifiers.onBind [checkedMessage]
  [
    wire checkedEnv Modifiers.onBind [checkedMessage]
      ++ header checkedMessage.cls (frame checkedEnv sender checkedMessage).length,
    4 :: (checkedEnv.lib.crc32 (hashed checkedEnv sender checkedMessage) ++ [1, 2, 3])
  ]

theorem sendable_checkedMessage : Sendable checkedEnv checkedMessage where
  create := rfl
  payload := by simp [payload, checkedEnv, Env.single, Bitsery.array, checkedMessage]
  lt := by
    change frameLength {} checkedFlags 1 < 256
    decide

-- The lowest bit of the only byte is lost.
theorem onRecvAll_of_damaged_bit :
    (onRecvAll checkedEnv ⟨[], Modifiers.onBind⟩ damagedPackets).rc
        = .error (.result .failIncorrectChecksum)
      ∧ List.Forall₂ Arrived [checkedMessage]
        (onRecvAll checkedEnv ⟨[], Modifiers.onBind⟩ damagedPackets).posted := by
  refine @onRecvAll_of_damaged _ checkedEnv rfl Modifiers.onBind Modifiers.onBind
    Modifiers.inStep_onBind [checkedMessage] (List.forall_mem_singleton.mpr sendable_checkedMessage)
    checkedMessage sendable_checkedMessage ⟨rfl, rfl⟩ [4] ?_ damagedPackets ?_ [1, 2, 3] ?_
  . exact @Crc32.Damaged.burst [5] [4] [] [true] [false]
      [false, true, false, false, false, false, false] rfl rfl rfl (by decide) (by decide)
  . intro chunk hchunk
    simp only [damagedPackets, List.mem_cons, List.not_mem_nil, or_false] at hchunk
    obtain rfl | rfl := hchunk
    . apply List.append_ne_nil_of_right_ne_nil
      exact List.ne_nil_of_length_pos (by rw [length_header]; decide)
    . exact List.cons_ne_nil _ _
  . simp [damagedPackets, damagedFrame]

end BitsProtocol
end Lax
