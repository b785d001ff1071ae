import Lax.Net.Service.Impl.SharedChannel

/-!
This module contains which session a packet in the static channel names.
-/

namespace Lax

theorem Slot.nextSeq_ne_zero (slot : Slot) : slot.nextSeq.1 ≠ 0 := by
  unfold nextSeq
  dsimp only
  split
  . next h =>
    dsimp only
    rw [h, UInt16.zero_add]
    decide
  . next h => exact h

theorem SlotTable.seq_ne_zero_of_newId {table table' : SlotTable} {id : SessionId}
    (h : table.newId = some (id, table')) : id.seq ≠ 0 := by
  unfold newId at h
  split at h
  . contradiction
  . injection h with h
    injection h with hid
    rw [← hid]
    apply Slot.nextSeq_ne_zero

theorem SessionId.value_ne_zero {id : SessionId} (h : id.seq ≠ 0) : id.value ≠ 0 := by
  intro hzero
  have hnat := congrArg UInt32.toNat hzero
  unfold value at hnat
  rw [UInt32.toNat_or, UInt16.toNat_toUInt32] at hnat
  have hseq := (Nat.or_eq_zero_iff.mp hnat).1
  exact h (UInt16.toNat_inj.mp hseq)

namespace SharedChannel

open Lifetime

variable {Body : UInt32 → Type} {env : Env Body}
  {archivedId : (cls : UInt32) → Body cls → Option UInt32} {start : Lifetime.State}

theorem id_packet_eq_iff (m : BitsMessage Body) {id : UInt32} (hid : id ≠ 0) :
    (packet archivedId m).id = id ↔ archivedId m.cls m.body = some id := by
  unfold packet
  split
  . next h =>
    rw [h]
    constructor
    . intro h
      exact absurd h.symm hid
    . intro h
      contradiction
  . next h => rw [h, Option.some.injEq]

theorem eq_packet_of_round {s s' : Lifetime.State} {pos : Nat} {p : Packet Body}
    (h : Lifetime.round env archivedId s pos = (s', some p)) : ∃ m, p = packet archivedId m := by
  unfold Lifetime.round handle at h
  split at h
  . injection h with _ h
    contradiction
  . split at h
    . injection h with _ h
      contradiction
    . dsimp only at h
      split at h
      . injection h with _ h
        contradiction
      . split at h
        . injection h with _ h
          contradiction
        . next m _ =>
          injection h with _ h
          injection h with h
          exact ⟨m, h.symm⟩

theorem eq_packet_of_step {s s' : Lifetime.State} {e : Lifetime.Event Body} {p : Packet Body}
    (h : Lifetime.step env archivedId s e = some (s', some p)) : ∃ m, p = packet archivedId m := by
  unfold Lifetime.step at h
  split at h
  . contradiction
  . split at h
    . simp at h
    . simp at h
    . simp at h
    . simp at h
    . injection h with h
      exact eq_packet_of_round h
    . contradiction

def Inv (archivedId : (cls : UInt32) → Body cls → Option UInt32) (s : State Body) : Prop :=
  (∀ id, s.sessions id ≠ none → id.seq ≠ 0)
    ∧ ∀ id p, (id, p) ∈ s.posted → id.seq ≠ 0 ∧ ∃ m, p = packet archivedId m

theorem named_update {s : State Body} (h : ∀ id, s.sessions id ≠ none → id.seq ≠ 0)
    {id : SessionId} {session : Option Lifetime.State} (hid : session ≠ none → id.seq ≠ 0) :
    ∀ id', Function.update s.sessions id session id' ≠ none → id'.seq ≠ 0 :=
  (Function.forall_update_iff s.sessions fun id session => session ≠ none → id.seq ≠ 0).mpr
    ⟨hid, fun id' _ => h id'⟩

theorem inv_step {s s' : State Body} {e : Event Body} (hinv : Inv archivedId s)
    (h : step env archivedId start s e = some s') : Inv archivedId s' := by
  obtain ⟨hsessions, hposted⟩ := hinv
  cases e with
  | newSocket =>
    obtain ⟨⟨id, table⟩, hid, rfl⟩ := Option.map_eq_some_iff.mp h
    exact ⟨named_update hsessions fun _ => SlotTable.seq_ne_zero_of_newId hid, hposted⟩
  | session id e =>
    unfold step at h
    dsimp only at h
    split at h
    . contradiction
    . next session hsession =>
      have hseq : id.seq ≠ 0 := hsessions id (by rw [hsession]; exact Option.some_ne_none _)
      obtain ⟨⟨session', packet⟩, hstep, rfl⟩ := Option.map_eq_some_iff.mp h
      refine ⟨named_update hsessions fun _ => hseq, ?_⟩
      intro id' p hmem
      rcases List.mem_append.mp hmem with hmem | hmem
      . exact hposted id' p hmem
      . obtain ⟨p', hp', heq⟩ := List.mem_map.mp hmem
        injection heq with hid hp
        subst hid hp
        have hpacket : packet = some p' := Option.mem_toList.mp hp'
        rw [hpacket] at hstep
        exact ⟨hseq, eq_packet_of_step hstep⟩
  | error id =>
    injection h with h
    subst h
    exact ⟨named_update hsessions fun hne => absurd rfl hne, hposted⟩

/--
What is posted says which session it comes from just if the body that has been read says so.
-/
theorem id_posted_eq_iff (env : Env Body)
    (archivedId : (cls : UInt32) → Body cls → Option UInt32) (start : Lifetime.State)
    (s : State Body) (hs : (machine env archivedId start).Reachable s) (id : SessionId)
    (p : Packet Body) (hp : (id, p) ∈ s.posted) :
    p.id = id.value ↔ archivedId p.message.cls p.message.body = some id.value := by
  have hinv : Inv archivedId s := by
    apply Machine.inv_of_reachable (Inv archivedId) ?_ (fun _ _ _ hinv h => inv_step hinv h) hs
    exact ⟨fun _ h => absurd rfl h, fun _ _ h => nomatch h⟩
  obtain ⟨hseq, m, rfl⟩ := hinv.2 id p hp
  have hmessage : (packet archivedId m).message = m := by
    unfold packet
    split <;> rfl
  rw [hmessage]
  exact id_packet_eq_iff m (SessionId.value_ne_zero hseq)

-- The first session of a service gets a message with one byte.
def single : BitsMessage fun _ => { xs : List UInt8 // xs.length = 1 } :=
  { cls := 1, flags := {}, length := 9, topic := 1, body := ⟨[7], rfl⟩ }

theorem exists_posted_single :
    let m := machine (Env.single 1 {}) (fun _ _ => none) (create false)
    ∃ s, m.Reachable s ∧ s.posted = [(⟨1, 0⟩, { id := 0, message := single })] := by
  refine ⟨_, ⟨[.newSocket, .session ⟨1, 0⟩ (.recv [9, 0, 0, 0, 1, 0, 0, 0, 7]),
    .session ⟨1, 0⟩ .round], rfl⟩, rfl⟩

theorem id_posted_eq_iff_single :
    let m := machine (Env.single 1 {}) (fun _ _ => none) (create false)
    ∃ s p, m.Reachable s ∧ (⟨1, 0⟩, p) ∈ s.posted
      ∧ (p.id = (SessionId.mk 1 0).value ↔ none = some (SessionId.mk 1 0).value) := by
  obtain ⟨s, hs, hposted⟩ := exists_posted_single
  have hmem : (⟨1, 0⟩, _) ∈ s.posted := hposted ▸ List.mem_singleton_self _
  exact ⟨s, _, hs, hmem, id_posted_eq_iff _ _ _ s hs ⟨1, 0⟩ _ hmem⟩

theorem exists_id_posted_ne :
    let m := machine (Env.single 1 {}) (fun _ _ => none) (create false)
    ∃ s id p, m.Reachable s ∧ (id, p) ∈ s.posted ∧ p.id ≠ SessionId.value id := by
  obtain ⟨s, hs, hposted⟩ := exists_posted_single
  refine ⟨s, ⟨1, 0⟩, _, hs, hposted ▸ List.mem_singleton_self _, ?_⟩
  decide

end SharedChannel
end Lax
