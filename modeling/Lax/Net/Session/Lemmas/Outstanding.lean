import Lax.Foundation.Turn
import Lax.Net.Session.Lemmas.Step

/-!
This module contains the proof that at most one read and one write are outstanding, and who is
responsible for `recving_` and `sending_`.
-/

namespace Lax
namespace Session

def Pc.Recvs : Pc → Prop
  | .startRead | .recvCompleted _ => True
  | _ => False

def Pc.Sends : Pc → Prop
  | .transfer _ | .startWrite _ | .sendCompleted _ | .released _ => True
  | _ => False

variable {Tid : Type}

structure Outstanding (s : State Tid) : Prop where
  recv : Turn Pc.Recvs s.threads s.recving s.reading
  send : Turn Pc.Sends s.threads s.sending s.writes.length

variable [DecidableEq Tid] {length : Nat} {s s' : State Tid} {t : Tid} {e : Event Tid}

theorem outstanding_init : Outstanding (@machine Tid _ length).init where
  recv := .outstanding rfl rfl fun _ h => h
  send := .free rfl rfl fun _ h => h

theorem recv_step {pc' : Pc} {base : State Tid} (h : Turn Pc.Recvs s.threads s.recving s.reading)
    (hmove : Move length s t e (s.threads t) pc' base) :
    Turn Pc.Recvs (Function.update s.threads t pc') base.recving base.reading := by
  generalize hpc : s.threads t = pc at hmove
  have hkeep : (pc'.Recvs ↔ pc.Recvs) → Turn Pc.Recvs (Function.update s.threads t pc') s.recving
      s.reading := fun hiff => h.move (hpc ▸ hiff)
  cases hmove with
  | readDone hpos =>
    obtain ⟨n, hn⟩ := Nat.exists_eq_succ_of_ne_zero (Nat.ne_of_gt hpos)
    rw [hn] at h
    dsimp only
    rw [hn]
    exact h.complete trivial
  | claimRecv hrecving =>
    rw [hrecving] at h
    exact h.take trivial
  | startRead => exact h.start (by rw [hpc]; trivial) id
  | recvFailed | recvDone => exact h.release (by rw [hpc]; trivial) id
  | _ => exact hkeep Iff.rfl

theorem send_step {pc' : Pc} {base : State Tid}
    (h : Turn Pc.Sends s.threads s.sending s.writes.length)
    (hmove : Move length s t e (s.threads t) pc' base) :
    Turn Pc.Sends (Function.update s.threads t pc') base.sending base.writes.length := by
  generalize hpc : s.threads t = pc at hmove
  have hkeep : (pc'.Sends ↔ pc.Sends) → Turn Pc.Sends (Function.update s.threads t pc') s.sending
      s.writes.length := fun hiff => h.move (hpc ▸ hiff)
  cases hmove with
  | @writeDone i ok hlt hdone =>
    obtain ⟨n, hn⟩ := Nat.exists_eq_succ_of_ne_zero (Nat.ne_of_gt (Nat.zero_lt_of_lt hlt))
    rw [hn] at h
    dsimp only
    rw [List.length_eraseIdx_of_lt hlt, hn]
    exact h.complete trivial
  | claimSend hsending =>
    rw [hsending] at h
    exact h.take trivial
  | startWrite =>
    dsimp only
    rw [List.length_append]
    exact h.start (by rw [hpc]; trivial) id
  | sendFailed | sendDone => exact h.release (by rw [hpc]; trivial) id
  | _ => exact hkeep Iff.rfl

theorem outstanding_step (h : Outstanding s) (hstep : step length s e = some s') :
    Outstanding s' := by
  obtain ⟨t, pc', base, hmove, rfl⟩ | ⟨i, n, bytes, -, -, rfl⟩ := moved_of_step hstep
  . have hrecv := recv_step h.recv hmove
    have hsend := send_step h.send hmove
    rw [← threads_of_move hmove] at hrecv hsend
    exact ⟨hrecv, hsend⟩
  . refine ⟨h.recv, ?_⟩
    dsimp only
    rw [List.length_set]
    exact h.send

end Session
end Lax
