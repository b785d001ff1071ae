import Lax.Foundation.Threads
import Lax.Net.Service.Lemmas.Step

/-!
This module contains the proof that nobody can acquire a session while `sys_session_ready` is being
posted for it.
-/

namespace Lax
namespace Service

open SlotTable

def Pc.session : Pc → Option SessionPtr
  | .constructing _ sp | .ready _ sp | .constructed _ sp | .relocked _ sp => some sp
  | _ => none

variable {Tid : Type}

structure Fresh (s : State Tid) : Prop where
  held_lt : ∀ index sp, s.table.held index = some sp → sp.obj < s.nextObj
  session_lt : ∀ t sp, (s.threads t).session = some sp → sp.obj < s.nextObj
  apart : ∀ t sp index sp', (s.threads t).session = some sp → s.table.held index = some sp' →
    sp'.obj ≠ sp.obj
  distinct : ∀ t t' sp sp', (s.threads t).session = some sp → (s.threads t').session = some sp' →
    sp.obj = sp'.obj → t = t'

inductive SessionStep (s s' : State Tid) (pc pc' : Pc) : Prop where
  | keep (hheld : ∀ index sp, s'.table.held index = some sp → s.table.held index = some sp)
    (hobj : s'.nextObj = s.nextObj) (hsession : pc'.session = none ∨ pc'.session = pc.session)
  | build (id : SessionId) (htable : s'.table = s.table) (hobj : s'.nextObj = s.nextObj + 1)
    (hsession : pc'.session = some ⟨s.nextObj, id⟩)
  | register (sp : SessionPtr) (htable : s'.table = s.table.register sp)
    (hobj : s'.nextObj = s.nextObj) (hsp : pc.session = some sp) (hsession : pc'.session = none)

variable {s s' : State Tid} {t : Tid} {e : Event Tid}

theorem held_of_error {table : SlotTable} {id : SessionId} {index : Nat} {sp : SessionPtr}
    (h : (table.error id).held index = some sp) : table.held index = some sp := by
  obtain hlt | hle := Nat.lt_or_ge id.index table.sessions.length
  . obtain ⟨-, -, -, hnone, hother, -⟩ := error_eq hlt
    by_cases hne : index = id.index
    . rw [hne, hnone] at h
      cases h
    . exact hother index hne ▸ h
  . exact error_of_le hle ▸ h

theorem held_of_register {table : SlotTable} {sp sp' : SessionPtr} {index : Nat}
    (h : (table.register sp).held index = some sp') : sp' = sp ∨ table.held index = some sp' := by
  by_cases hne : index = sp.id.index
  . left
    have hlt := lt_of_held _ h
    rw [hne] at h hlt
    rw [show (table.register sp).sessions.length = table.sessions.length from
      length_modify table _ _] at hlt
    have hheld : (table.register sp).held sp.id.index = some sp := held_modify table hlt _
    exact Option.some.inj (h.symm.trans hheld)
  . right
    exact held_register_of_ne hne ▸ h

theorem sessionStep_of_move {pc pc' : Pc} (h : Move s s' e t pc pc') : SessionStep s s' pc pc' := by
  have hkeep : ∀ {owner nextObj}, Leaves s' s.table owner nextObj → ∀ index sp,
      s'.table.held index = some sp → s.table.held index = some sp :=
    fun h index sp hheld => h.table ▸ hheld
  cases h with
  | error h =>
    refine .keep ?_ h.nextObj (Or.inl rfl)
    intro index sp hheld
    rw [h.table] at hheld
    exact held_of_error hheld
  | reserve hkey hnew h =>
    refine .keep ?_ h.nextObj (Or.inl rfl)
    intro index sp hheld
    rw [h.table, (freeSlot_of_newId hnew).held] at hheld
    exact hheld
  | release h => exact .build _ h.table h.nextObj rfl
  | register h => exact .register _ h.table h.nextObj rfl rfl
  | notify h | construct h | relock _ h => exact .keep (hkeep h) h.nextObj (Or.inr rfl)
  | call h | acquire h | lock _ h | finish _ _ h | throwEarly h | throwLate h | unlock h | forget h
  | leave h | share h | unshare h => exact .keep (hkeep h) h.nextObj (Or.inl rfl)

variable [DecidableEq Tid]

theorem session_update {pc : Pc} (h : s'.threads = Function.update s.threads t pc) {t' : Tid}
    {sp : SessionPtr} (hsession : (s'.threads t').session = some sp) :
    t' = t ∧ pc.session = some sp ∨ t' ≠ t ∧ (s.threads t').session = some sp := by
  rw [h] at hsession
  exact Threads.update_cases (Pc.session · = some sp) hsession

theorem fresh_step (h : Fresh s) (hstep : step s e = some s') : Fresh s' := by
  obtain ⟨t, pc', hmove, hthreads⟩ := moved_of_step hstep
  cases sessionStep_of_move hmove with
  | keep hheld hobj hsession =>
    have hold : ∀ t' sp, (s'.threads t').session = some sp → (s.threads t').session = some sp := by
      intro t' sp ht'
      obtain ⟨rfl, ht'⟩ | ⟨-, ht'⟩ := session_update hthreads ht'
      . obtain hnone | hsame := hsession
        . cases hnone.symm.trans ht'
        . exact hsame ▸ ht'
      . exact ht'
    constructor
    . exact fun index sp hsp => hobj ▸ h.held_lt index sp (hheld index sp hsp)
    . exact fun t' sp ht' => hobj ▸ h.session_lt t' sp (hold t' sp ht')
    . exact fun t' sp index sp' ht' hsp' => h.apart t' sp index sp' (hold t' sp ht') (hheld index sp' hsp')
    . exact fun t₁ t₂ sp₁ sp₂ h₁ h₂ => h.distinct t₁ t₂ sp₁ sp₂ (hold t₁ sp₁ h₁) (hold t₂ sp₂ h₂)
  | build id htable hobj hsession =>
    have hcases : ∀ t' sp, (s'.threads t').session = some sp →
        t' = t ∧ sp = ⟨s.nextObj, id⟩ ∨ t' ≠ t ∧ (s.threads t').session = some sp := by
      intro t' sp ht'
      refine (session_update hthreads ht').imp_left ?_
      rintro ⟨heq, hsp⟩
      exact ⟨heq, Option.some.inj (hsp.symm.trans hsession)⟩
    constructor
    . intro index sp hheld
      rw [hobj]
      exact Nat.lt_succ_of_lt (h.held_lt index sp (htable ▸ hheld))
    . intro t' sp ht'
      rw [hobj]
      obtain ⟨-, rfl⟩ | ⟨-, ht'⟩ := hcases t' sp ht'
      . exact Nat.lt_succ_self _
      . exact Nat.lt_succ_of_lt (h.session_lt t' sp ht')
    . intro t' sp index sp' ht' hheld
      rw [htable] at hheld
      obtain ⟨-, rfl⟩ | ⟨-, ht'⟩ := hcases t' sp ht'
      . exact Nat.ne_of_lt (h.held_lt index sp' hheld)
      . exact h.apart t' sp index sp' ht' hheld
    . intro t₁ t₂ sp₁ sp₂ h₁ h₂ heq
      obtain ⟨rfl, rfl⟩ | ⟨-, h₁⟩ := hcases t₁ sp₁ h₁
      . obtain ⟨rfl, -⟩ | ⟨-, h₂⟩ := hcases t₂ sp₂ h₂
        . rfl
        . exact absurd heq.symm (Nat.ne_of_lt (h.session_lt t₂ sp₂ h₂))
      . obtain ⟨rfl, rfl⟩ | ⟨-, h₂⟩ := hcases t₂ sp₂ h₂
        . exact absurd heq (Nat.ne_of_lt (h.session_lt t₁ sp₁ h₁))
        . exact h.distinct t₁ t₂ sp₁ sp₂ h₁ h₂ heq
  | register sp htable hobj hsp hsession =>
    have hold : ∀ t' sp', (s'.threads t').session = some sp' →
        t' ≠ t ∧ (s.threads t').session = some sp' := by
      intro t' sp' ht'
      refine (session_update hthreads ht').resolve_left ?_
      rintro ⟨-, hsp'⟩
      cases hsession.symm.trans hsp'
    constructor
    . intro index sp' hheld
      rw [hobj]
      rw [htable] at hheld
      obtain rfl | hheld := held_of_register hheld
      . exact h.session_lt t sp' hsp
      . exact h.held_lt index sp' hheld
    . exact fun t' sp' ht' => hobj ▸ h.session_lt t' sp' (hold t' sp' ht').2
    . intro t' sp' index sp'' ht' hheld
      obtain ⟨hne, ht'⟩ := hold t' sp' ht'
      rw [htable] at hheld
      obtain rfl | hheld := held_of_register hheld
      . exact fun heq => hne (h.distinct t' t sp' sp'' ht' hsp heq.symm)
      . exact h.apart t' sp' index sp'' ht' hheld
    . intro t₁ t₂ sp₁ sp₂ h₁ h₂
      exact h.distinct t₁ t₂ sp₁ sp₂ (hold t₁ sp₁ h₁).2 (hold t₂ sp₂ h₂).2

theorem fresh_of_reachable (h : (@machine Tid _).Reachable s) : Fresh s := by
  refine Machine.inv_of_reachable Fresh ?_ (fun _ _ _ hfresh => fresh_step hfresh) h
  constructor
  . exact fun _ _ h => nomatch h
  . exact fun _ _ h => nomatch h
  . exact fun _ _ _ _ h => nomatch h
  . exact fun _ _ _ _ h => nomatch h

omit [DecidableEq Tid] in
theorem held_of_acquire {table : SlotTable} {id : SessionId} {sp : SessionPtr}
    (h : table.acquire id = some (some sp)) : table.held id.index = some sp := by
  unfold acquire at h
  split at h
  . cases h
  . unfold held
    cases hslot : table.sessions[id.index]? with
    | none =>
      rw [hslot] at h
      cases h
    | some slot =>
      rw [hslot] at h
      exact Option.some.inj h

/--
In the subscribers of `sys_session_ready` there is no ref to the session to be had.
-/
theorem acquire_ne_ready (s : State Tid) (hreachable : machine.Reachable s) (t : Tid) (h : Handler)
    (sp : SessionPtr) (hready : s.threads t = .ready h sp) :
    ∀ sp', s.table.acquire sp.id = some (some sp') → sp'.obj ≠ sp.obj := by
  intro sp' hacquire
  refine (fresh_of_reachable hreachable).apart t sp sp.id.index sp' ?_ (held_of_acquire hacquire)
  rw [hready]
  rfl

def notifying : List (Event Unit) :=
  [.call () .listen, .next () true, .next () true, .next () true]
    ++ .call () (.newSocket ⟨true, 1⟩) :: List.replicate 4 (.next () true)

theorem acquire_ne_ready_notifying :
    ∃ s, machine.run machine.init notifying = some s
      ∧ ∀ sp', s.table.acquire ⟨1, 0⟩ = some (some sp') → sp'.obj ≠ 0 :=
  ⟨_, rfl, acquire_ne_ready _ ⟨notifying, rfl⟩ () ⟨true, 1⟩ ⟨0, ⟨1, 0⟩⟩ rfl⟩

theorem acquire_notifying :
    ∃ s, machine.run machine.init notifying = some s
      ∧ s.threads () = .ready ⟨true, 1⟩ ⟨0, ⟨1, 0⟩⟩
      ∧ s.table.acquire ⟨1, 0⟩ = some none :=
  ⟨_, rfl, rfl, rfl⟩

end Service
end Lax
