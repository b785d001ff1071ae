import Lax.Net.Service.Impl.Service
import Lax.Net.Service.Lemmas.SlotTable

/-!
This module contains everything that a step of the service can do.
-/

namespace Lax
namespace Service

variable {Tid : Type} [DecidableEq Tid]

structure Leaves (s' : State Tid) (table : SlotTable) (owner : Option Tid) (nextObj : Nat) :
    Prop where
  table : s'.table = table
  owner : s'.owner = owner
  nextObj : s'.nextObj = nextObj

inductive Move (s s' : State Tid) : Event Tid → Tid → Pc → Pc → Prop
  | call {t : Tid} {op : Op} (h : Leaves s' s.table s.owner s.nextObj) :
    Move s s' (.call t op) t .idle (.waiting op)
  | acquire {t : Tid} {id : SessionId} (h : Leaves s' s.table s.owner s.nextObj) :
    Move s s' (.acquire t id) t .idle (.acquiring id)
  | lock {t : Tid} {ok : Bool} {op : Op} (hfree : s.owner = none)
    (h : Leaves s' s.table (some t) s.nextObj) :
    Move s s' (.next t ok) t (.waiting op) (.locked op)
  | error {t : Tid} {ok : Bool} {id : SessionId}
    (h : Leaves s' (s.table.error id) s.owner s.nextObj) :
    Move s s' (.next t ok) t (.locked (.error id)) (.leaving true)
  | finish {t : Tid} {ok : Bool} {op : Op} (herror : ∀ id, op ≠ .error id)
    (hsocket : ∀ h, op = .newSocket h → h.key ∈ s.keys h → s.table.newId = none)
    (h : Leaves s' s.table s.owner s.nextObj) :
    Move s s' (.next t ok) t (.locked op) (.leaving true)
  | reserve {t : Tid} {ok : Bool} {h : Handler} {id : SessionId} {table : SlotTable}
    (hkey : h.key ∈ s.keys h) (hnew : s.table.newId = some (id, table))
    (h' : Leaves s' table s.owner s.nextObj) :
    Move s s' (.next t ok) t (.locked (.newSocket h)) (.reserved h id)
  | release {t : Tid} {ok : Bool} {h : Handler} {id : SessionId}
    (h' : Leaves s' s.table none (s.nextObj + 1)) :
    Move s s' (.next t ok) t (.reserved h id) (.constructing h ⟨s.nextObj, id⟩)
  | notify {t : Tid} {h : Handler} {sp : SessionPtr} (h' : Leaves s' s.table s.owner s.nextObj) :
    Move s s' (.next t true) t (.constructing h sp) (.ready h sp)
  | construct {t : Tid} {h : Handler} {sp : SessionPtr} (h' : Leaves s' s.table s.owner s.nextObj) :
    Move s s' (.next t true) t (.ready h sp) (.constructed h sp)
  | throwEarly {t : Tid} {h : Handler} {sp : SessionPtr} (h' : Leaves s' s.table s.owner s.nextObj) :
    Move s s' (.next t false) t (.constructing h sp) (.leaving false)
  | throwLate {t : Tid} {h : Handler} {sp : SessionPtr} (h' : Leaves s' s.table s.owner s.nextObj) :
    Move s s' (.next t false) t (.ready h sp) (.leaving false)
  | relock {t : Tid} {ok : Bool} {h : Handler} {sp : SessionPtr} (hfree : s.owner = none)
    (h' : Leaves s' s.table (some t) s.nextObj) :
    Move s s' (.next t ok) t (.constructed h sp) (.relocked h sp)
  | register {t : Tid} {ok : Bool} {h : Handler} {sp : SessionPtr}
    (h' : Leaves s' (s.table.register sp) s.owner s.nextObj) :
    Move s s' (.next t ok) t (.relocked h sp) (.registered h)
  | unlock {t : Tid} {ok : Bool} {h : Handler} (h' : Leaves s' s.table none s.nextObj) :
    Move s s' (.next t ok) t (.registered h) (.returned h)
  | forget {t : Tid} {ok : Bool} {h : Handler} (h' : Leaves s' s.table s.owner s.nextObj) :
    Move s s' (.next t ok) t (.returned h) (.leaving false)
  | leave {t : Tid} {ok held : Bool} (h : Leaves s' s.table none s.nextObj) :
    Move s s' (.next t ok) t (.leaving held) .idle
  | share {t : Tid} {ok : Bool} {id : SessionId} (h : Leaves s' s.table s.owner s.nextObj) :
    Move s s' (.next t ok) t (.acquiring id) (.reading id)
  | unshare {t : Tid} {ok : Bool} {id : SessionId} (h : Leaves s' s.table s.owner s.nextObj) :
    Move s s' (.next t ok) t (.reading id) .idle

def Moved (s s' : State Tid) (e : Event Tid) (t : Tid) (pc : Pc) : Prop :=
  ∃ pc', Move s s' e t pc pc' ∧ s'.threads = Function.update s.threads t pc'

variable {s s' : State Tid} {t : Tid} {ok : Bool}

theorem moved_finish {op : Op} (herror : ∀ id, op ≠ .error id) (hsocket : ∀ h, op ≠ .newSocket h)
    (h : Leaves s' s.table s.owner s.nextObj)
    (hthreads : s'.threads = Function.update s.threads t (.leaving true)) :
    Moved s s' (.next t ok) t (.locked op) :=
  ⟨_, .finish herror (fun h' heq => absurd heq (hsocket h')) h, hthreads⟩

theorem moved_listen : Moved s (s.listen t ok) (.next t ok) t (.locked .listen) := by
  apply moved_finish
  . exact fun _ h => nomatch h
  . exact fun _ h => nomatch h
  all_goals
    unfold State.listen
    split
    . first | rfl | exact ⟨rfl, rfl, rfl⟩
    . cases ok <;> first | rfl | exact ⟨rfl, rfl, rfl⟩

theorem moved_connect : Moved s (s.connect t ok) (.next t ok) t (.locked .connect) := by
  apply moved_finish
  . exact fun _ h => nomatch h
  . exact fun _ h => nomatch h
  all_goals
    unfold State.connect
    split
    . first | rfl | exact ⟨rfl, rfl, rfl⟩
    . cases ok <;> first | rfl | exact ⟨rfl, rfl, rfl⟩

theorem moved_newSocket (h : Handler) :
    Moved s (s.newSocket t h) (.next t ok) t (.locked (.newSocket h)) := by
  have herror : ∀ id, Op.newSocket h ≠ .error id := by
    intro id heq
    cases heq
  unfold State.newSocket
  split
  . split
    . exact ⟨_, .finish herror (fun _ _ _ => ‹_›) ⟨rfl, rfl, rfl⟩, rfl⟩
    . exact ⟨_, .reserve ‹_› ‹_› ⟨rfl, rfl, rfl⟩, rfl⟩
  . refine ⟨_, .finish herror ?_ ⟨rfl, rfl, rfl⟩, rfl⟩
    rintro h' ⟨⟩ hkey
    exact absurd hkey ‹_›

theorem moved_body (op : Op) : Moved s (s.body t ok op) (.next t ok) t (.locked op) := by
  cases op with
  | error id => exact ⟨_, .error ⟨rfl, rfl, rfl⟩, rfl⟩
  | newSocket h => exact moved_newSocket h
  | listen => exact moved_listen
  | connect => exact moved_connect

theorem lock_eq_some {pc : Pc} (h : s.lock t pc = some s') :
    s.owner = none ∧ Leaves s' s.table (some t) s.nextObj
      ∧ s'.threads = Function.update s.threads t pc := by
  unfold State.lock at h
  split at h
  . injection h with h
    subst h
    exact ⟨And.left ‹_›, ⟨rfl, rfl, rfl⟩, rfl⟩
  . cases h

theorem moved_advance {pc : Pc} (hstep : advance s t ok pc = some s') :
    Moved s s' (.next t ok) t pc := by
  cases pc with
  | idle => cases hstep
  | waiting op =>
    obtain ⟨hfree, h, hthreads⟩ := lock_eq_some hstep
    exact ⟨_, .lock hfree h, hthreads⟩
  | locked op =>
    injection hstep with hstep
    exact hstep ▸ moved_body op
  | reserved h id =>
    injection hstep with hstep
    subst hstep
    exact ⟨_, .release ⟨rfl, rfl, rfl⟩, rfl⟩
  | constructing h sp =>
    injection hstep with hstep
    subst hstep
    cases ok with
    | true => exact ⟨_, .notify ⟨rfl, rfl, rfl⟩, rfl⟩
    | false => exact ⟨_, .throwEarly ⟨rfl, rfl, rfl⟩, rfl⟩
  | ready h sp =>
    injection hstep with hstep
    subst hstep
    cases ok with
    | true => exact ⟨_, .construct ⟨rfl, rfl, rfl⟩, rfl⟩
    | false => exact ⟨_, .throwLate ⟨rfl, rfl, rfl⟩, rfl⟩
  | constructed h sp =>
    obtain ⟨hfree, h', hthreads⟩ := lock_eq_some hstep
    exact ⟨_, .relock hfree h', hthreads⟩
  | relocked h sp =>
    injection hstep with hstep
    subst hstep
    exact ⟨_, .register ⟨rfl, rfl, rfl⟩, rfl⟩
  | registered h =>
    injection hstep with hstep
    subst hstep
    exact ⟨_, .unlock ⟨rfl, rfl, rfl⟩, rfl⟩
  | returned h =>
    injection hstep with hstep
    subst hstep
    unfold State.forget
    dsimp only
    split <;> exact ⟨_, .forget ⟨rfl, rfl, rfl⟩, rfl⟩
  | leaving held =>
    injection hstep with hstep
    subst hstep
    exact ⟨_, .leave ⟨rfl, rfl, rfl⟩, rfl⟩
  | acquiring id =>
    dsimp only [advance] at hstep
    split at hstep
    . injection hstep with hstep
      subst hstep
      exact ⟨_, .share ⟨rfl, rfl, rfl⟩, rfl⟩
    . cases hstep
  | reading id =>
    injection hstep with hstep
    subst hstep
    exact ⟨_, .unshare ⟨rfl, rfl, rfl⟩, rfl⟩

theorem moved_of_step {e : Event Tid} (hstep : step s e = some s') :
    ∃ t, Moved s s' e t (s.threads t) := by
  cases e with
  | call t op =>
    dsimp only [step] at hstep
    split at hstep
    . injection hstep with hstep
      subst hstep
      refine ⟨t, _, ?_, rfl⟩
      rw [‹s.threads t = .idle›]
      exact .call ⟨rfl, rfl, rfl⟩
    . cases hstep
  | acquire t id =>
    dsimp only [step] at hstep
    split at hstep
    . injection hstep with hstep
      subst hstep
      refine ⟨t, _, ?_, rfl⟩
      rw [‹s.threads t = .idle›]
      exact .acquire ⟨rfl, rfl, rfl⟩
    . cases hstep
  | next t ok => exact ⟨t, moved_advance hstep⟩

end Service
end Lax
