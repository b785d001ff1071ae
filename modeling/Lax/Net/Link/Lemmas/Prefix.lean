import Lax.Net.BitsProtocol.Lemmas.RoundTrip

/-!
This module contains what `on_recv` makes of the start of a stream of frames: the messages whose
frames are there as a whole, and bytes that it keeps for the next time.
-/

namespace Lax
namespace BitsProtocol

open BitsMessage

variable {Body : UInt32 → Type}

variable (env : Env Body) in
-- The receiver knows the class, there is something in the message, and the frame is so short that the
-- length field is right.
structure Sendable (m : BitsMessage Body) : Prop where
  create : env.create m.cls = some m.flags
  payload : payload env m ≠ []
  lt : frameLength env.cfg m.flags (BitsProtocol.payload env m).length < 256

instance decidableSendable (env : Env Body) (m : BitsMessage Body) : Decidable (Sendable env m) :=
  decidable_of_iff
    (env.create m.cls = some m.flags ∧ payload env m ≠ []
      ∧ frameLength env.cfg m.flags (payload env m).length < 256)
    ⟨fun h => ⟨h.1, h.2.1, h.2.2⟩, fun h => ⟨h.create, h.payload, h.lt⟩⟩

variable (env : Env Body) in
-- The modifiers of somebody who has sent these.
def after (mods : Modifiers) : List (BitsMessage Body) → Modifiers
  | [] => mods
  | m :: ms => after (Modifiers.sealedState env.lib env.cfg m.flags mods (payload env m)) ms

variable {env : Env Body}

theorem after_append (mods : Modifiers) (ms ms' : List (BitsMessage Body)) :
    after env mods (ms ++ ms') = after env (after env mods ms) ms' := by
  induction ms generalizing mods with
  | nil => rfl
  | cons m ms ih => exact ih _

theorem wire_append (mods : Modifiers) (ms ms' : List (BitsMessage Body)) :
    wire env mods (ms ++ ms') = wire env mods ms ++ wire env (after env mods ms) ms' := by
  induction ms generalizing mods with
  | nil => rfl
  | cons m ms ih =>
    rw [List.cons_append, wire, wire, ih, List.append_assoc]
    rfl

theorem Sendable.wireLength {m : BitsMessage Body} (h : Sendable env m) (mods : Modifiers) :
    wireLength (frame env mods m).length = (frame env mods m).length := by
  rw [length_frame env mods h.payload]
  exact (wireLength_eq_iff (Nat.lt_trans h.lt (by decide))).mpr h.lt

theorem Sendable.le_longestPacked {m : BitsMessage Body} (h : Sendable env m) :
    headerLength + (BitsProtocol.payload env m).length ≤ longestPacked := by
  have hle := length_payload_le env m
  have hlt := h.lt
  change _ ≤ 16384
  omega

theorem Sendable.headerLength_lt {m : BitsMessage Body} (h : Sendable env m) :
    headerLength + (BitsProtocol.payload env m).length < 2 ^ 63 :=
  Nat.lt_of_le_of_lt h.le_longestPacked (by decide)

theorem Sendable.nextCall {m : BitsMessage Body} (h : Sendable env m) (sender receiver : Modifiers)
    (rest : List UInt8) :
    BitsProtocol.nextCall receiver (frame env sender m ++ rest) 0
      = some ⟨m.cls, receiver, frame env sender m ++ rest, 0, (frame env sender m).length⟩ := by
  have hcall := nextCall_frame sender receiver m [] rest h.payload
  rw [h.wireLength, if_neg] at hcall
  . exact hcall
  . rw [List.length_append]
    exact Nat.not_lt.mpr (Nat.le_add_right _ _)

theorem nextFrame_frame {sender receiver : Modifiers} (hstep : Modifiers.InStep sender receiver)
    {m : BitsMessage Body} (h : Sendable env m) (rest : List UInt8) :
    ∃ posted receiver', nextFrame env receiver (frame env sender m ++ rest)
        = .frame (m.cls, (frame env sender m).length) (frame env sender m).length posted receiver'
      ∧ Arrived m posted
      ∧ Modifiers.InStep (Modifiers.sealedState env.lib env.cfg m.flags sender (payload env m))
        receiver' := by
  obtain ⟨⟨posted, hrc, harrived⟩, hstep'⟩ := handle_own_frame hstep h.create h.headerLength_lt
  refine ⟨posted, _, ?_, harrived, hstep'⟩
  have hown : Call.own ⟨m.cls, receiver, frame env sender m ++ rest, 0, (frame env sender m).length⟩
      = ⟨m.cls, receiver, frame env sender m, 0, (frame env sender m).length⟩ := by
    unfold Call.own
    rw [Slice.read_zero, List.take_left]
  unfold nextFrame
  rw [h.nextCall sender receiver rest]
  dsimp only
  rw [hown, hrc]
  rfl

-- The length field says that there is more.
theorem nextFrame_cut {sender : Modifiers} {m : BitsMessage Body} (h : Sendable env m)
    (receiver : Modifiers) {bytes more : List UInt8} (hframe : bytes ++ more = frame env sender m)
    (hmore : more ≠ []) : nextFrame env receiver bytes = .wait := by
  unfold nextFrame
  cases hcall : BitsProtocol.nextCall receiver bytes 0 with
  | none => rfl
  | some call =>
    obtain ⟨rfl, -, hin⟩ := nextCall_eq_some hcall
    have happend := @nextCall_append receiver bytes more _ hcall
    have hwhole := h.nextCall sender receiver []
    rw [List.append_nil, ← hframe, happend] at hwhole
    have hlen : getLength bytes 0 = (bytes ++ more).length :=
      congrArg Call.len (Option.some.inj hwhole)
    have hpos := List.length_pos_iff.mpr hmore
    have hle : 0 + getLength bytes 0 ≤ bytes.length := hin
    rw [List.length_append] at hlen
    omega

variable (env) in
-- The messages are posted whose frames are there as a whole.
structure Posts (sender : Modifiers) (ms : List (BitsMessage Body)) (bytes : List UInt8)
    (r : FrameParser.Run UInt8 Modifiers (UInt32 × Nat) (BitsMessage Body) Failure) : Prop where
  rc : r.rc = .ok ()
  own : AllOwn env r.keys
  posted : ∃ k, List.Forall₂ Arrived (ms.take k) r.msgs
    ∧ bytes = wire env sender (ms.take k) ++ r.rest
    ∧ ∀ m, ms[k]? = some m → r.rest.length < (frame env (after env sender (ms.take k)) m).length

theorem Posts.of_wait {sender receiver : Modifiers} {ms : List (BitsMessage Body)}
    {bytes : List UInt8} (h : nextFrame env receiver bytes = .wait)
    (hlt : ∀ m, ms[0]? = some m → bytes.length < (frame env sender m).length) :
    Posts env sender ms bytes ((frames env).run receiver bytes) := by
  rw [FrameParser.run_wait h]
  refine ⟨rfl, fun key hkey => absurd hkey List.not_mem_nil, 0, ?_, ?_, ?_⟩
  . rw [List.take_zero]
    exact .nil
  . rw [List.take_zero]
    rfl
  . rwa [List.take_zero]

theorem Posts.cons {sender : Modifiers} {m posted : BitsMessage Body} (h : Sendable env m)
    (harrived : Arrived m posted) {ms : List (BitsMessage Body)} {bytes : List UInt8}
    {r : FrameParser.Run UInt8 Modifiers (UInt32 × Nat) (BitsMessage Body) Failure}
    (hr : Posts env (Modifiers.sealedState env.lib env.cfg m.flags sender (payload env m)) ms bytes r) :
    Posts env sender (m :: ms) (frame env sender m ++ bytes)
      (r.prepend [posted] [(m.cls, (frame env sender m).length)]) := by
  obtain ⟨hrc, hown, k, hposted, hbytes, hlt⟩ := hr
  refine ⟨hrc, ?_, k + 1, .cons harrived hposted, ?_, ?_⟩
  . intro key hkey
    obtain rfl | hkey := List.mem_cons.mp hkey
    . apply dependsOnOwnBytes_of_sequence
      intro _ _ _
      exact Nat.lt_of_le_of_lt (Nat.zero_le _) (headerLength_lt_length_frame env sender h.payload)
    . exact hown key hkey
  . rw [List.take_succ_cons, wire, List.append_assoc, hbytes]
    rfl
  . rwa [List.getElem?_cons_succ]

theorem Posts.all {sender : Modifiers} {ms : List (BitsMessage Body)}
    {r : FrameParser.Run UInt8 Modifiers (UInt32 × Nat) (BitsMessage Body) Failure}
    (h : Posts env sender ms (wire env sender ms) r) :
    List.Forall₂ Arrived ms r.msgs ∧ r.rest = [] := by
  obtain ⟨-, -, k, hposted, hbytes, hlt⟩ := h
  have hsplit := @wire_append _ env sender (ms.take k) (ms.drop k)
  rw [List.take_append_drop, hbytes] at hsplit
  have hrest := List.append_cancel_left hsplit
  cases hdrop : ms.drop k with
  | nil =>
    rw [hdrop] at hrest
    rw [List.take_of_length_le (List.drop_eq_nil_iff.mp hdrop)] at hposted
    exact ⟨hposted, hrest⟩
  | cons m ms' =>
    have hm : ms[k]? = some m := by
      rw [← List.head?_drop, hdrop]
      rfl
    have hlen := hlt m hm
    rw [hrest, hdrop, wire, List.length_append] at hlen
    exact absurd hlen (Nat.not_lt.mpr (Nat.le_add_right _ _))

theorem posts_of_prefix {sender receiver : Modifiers} (hstep : Modifiers.InStep sender receiver)
    {ms : List (BitsMessage Body)} (hms : ∀ m ∈ ms, Sendable env m) {bytes : List UInt8}
    (hbytes : bytes <+: wire env sender ms) :
    Posts env sender ms bytes ((frames env).run receiver bytes) := by
  induction ms generalizing sender receiver bytes with
  | nil =>
    rw [List.prefix_nil.mp hbytes]
    exact .of_wait rfl (fun m hm => nomatch hm)
  | cons m ms ih =>
    rw [List.forall_mem_cons] at hms
    have hwhole : ∀ {rest}, rest <+: wire env
        (Modifiers.sealedState env.lib env.cfg m.flags sender (payload env m)) ms →
        Posts env sender (m :: ms) (frame env sender m ++ rest)
          ((frames env).run receiver (frame env sender m ++ rest)) := by
      intro rest hrest
      obtain ⟨posted, receiver', hnext, harrived, hstep'⟩ := nextFrame_frame hstep hms.1 rest
      rw [FrameParser.run_frame hnext, List.drop_left]
      exact .cons hms.1 harrived (ih hstep' hms.2 hrest)
    obtain ⟨more, hmore⟩ := hbytes
    rw [wire] at hmore
    obtain ⟨missing, hframe, -⟩ | ⟨rest, rfl, hrest⟩ := List.append_eq_append_iff.mp hmore
    . by_cases hmissing : missing = []
      . rw [hmissing, List.append_nil] at hframe
        rw [← hframe, ← List.append_nil (frame env sender m)]
        exact hwhole List.nil_prefix
      . apply Posts.of_wait (nextFrame_cut hms.1 receiver hframe.symm hmissing)
        intro m' hm'
        injection hm' with hm'
        rw [← hm', hframe, List.length_append]
        exact Nat.lt_add_of_pos_right (List.length_pos_iff.mpr hmissing)
    . exact hwhole ⟨more, hrest.symm⟩

end BitsProtocol
end Lax
