import Lax.Foundation.Threads
import Lax.Net.Service.Lemmas.Step

/-!
This module contains who unlocks the mutex of a service, and that only handlers that get a slot for
their socket unlock it without holding it.
-/

namespace Lax
namespace Service

-- The sections that a thread enters with `std::unique_lock` or `mutex_.lock()`.
def Pc.exclusive : Pc → Bool
  | .locked _ | .reserved _ _ | .relocked _ _ | .registered _ | .leaving true => true
  | _ => false

def Pc.unlocks : Pc → Bool
  | .reserved _ _ | .registered _ | .leaving _ => true
  | _ => false

-- Here the `std::unique_lock` of the caller and the mutex may disagree.
def Pc.handedOver : Pc → Bool
  | .reserved _ _ | .constructing _ _ | .ready _ _ | .constructed _ _ | .relocked _ _
  | .registered _ | .returned _ | .leaving false => true
  | _ => false

variable {Tid : Type} [DecidableEq Tid]

def UnlocksOwn (s : State Tid) : Event Tid → Prop
  | .next t _ => (s.threads t).unlocks = true → s.owner = some t
  | _ => True

-- The handler does not know its key, or there is no slot and `get_free_slot` throws.
def TakesNoSlot (s : State Tid) : Event Tid → Prop
  | .next t _ => ∀ h, s.threads t = .locked (.newSocket h) →
    h.key ∉ s.keys h ∨ maxSlots ≤ s.table.sessions.length
  | _ => True

omit [DecidableEq Tid] in
def Exclusive (s : State Tid) : Prop :=
  ∀ t t', (s.threads t).exclusive = true → (s.threads t').exclusive = true → t = t'

variable {s s' : State Tid} {t : Tid} {e : Event Tid}

inductive LockStep (s s' : State Tid) (t : Tid) (pc pc' : Pc) : Prop where
  | keep (howner : s'.owner = s.owner) (hexclusive : pc'.exclusive = pc.exclusive)
    (hunlocks : pc.unlocks = false)
  | lock (hfree : s.owner = none) (howner : s'.owner = some t) (hexclusive : pc'.exclusive = true)
    (hunlocks : pc.unlocks = false)
  | unlock (howner : s'.owner = none) (hexclusive : pc'.exclusive = false)
    (hunlocks : pc.unlocks = true)

omit [DecidableEq Tid] in
theorem lockStep_of_move {pc pc' : Pc} (h : Move s s' e t pc pc') : LockStep s s' t pc pc' := by
  cases h with
  | lock hfree h | relock hfree h => exact .lock hfree h.owner rfl rfl
  | release h | unlock h | leave h => exact .unlock h.owner rfl rfl
  | call h | acquire h | error h | finish _ _ h | reserve _ _ h | notify h | construct h | throwEarly h
  | throwLate h | register h | forget h | share h | unshare h => exact .keep h.owner rfl rfl

omit [DecidableEq Tid] in
theorem handedOver_of_move {pc pc' : Pc} (h : Move s s' e t pc pc') (hpc : pc.handedOver = true) :
    pc'.handedOver = true ∨ pc = .leaving false := by
  cases h with
  | @leave t ok held h =>
    cases held with
    | false => exact Or.inr rfl
    | true => cases hpc
  | _ => first | exact Or.inl rfl | cases hpc

omit [DecidableEq Tid] in
theorem takesNoSlot_iff {pc' : Pc} (h : Move s s' e t (s.threads t) pc')
    (hpc : (s.threads t).handedOver = false) : TakesNoSlot s e ↔ pc'.handedOver = false := by
  have hsocket : ∀ t ok, (∀ h, s.threads t ≠ .locked (.newSocket h)) → TakesNoSlot s (.next t ok) :=
    fun t _ hne h heq => absurd heq (hne h)
  generalize hold : s.threads t = pc at h hpc
  cases h with
  | call h | acquire h => exact iff_of_true trivial rfl
  | @finish t ok op herror hnone h =>
    refine iff_of_true ?_ rfl
    intro h' heq
    injection hold.symm.trans heq with hop
    by_cases hkey : h'.key ∈ s.keys h'
    . exact Or.inr (SlotTable.newId_eq_none_iff.mp (hnone h' hop hkey))
    . exact Or.inl hkey
  | reserve hkey hnew h =>
    refine iff_of_false ?_ (fun h => nomatch h)
    intro htakes
    obtain hno | hfull := htakes _ hold
    . exact hno hkey
    . cases hnew.symm.trans (SlotTable.newId_eq_none_iff.mpr hfull)
  | lock _ h | error h | leave h | share h | unshare h =>
    refine iff_of_true (hsocket _ _ ?_) rfl
    intro h heq
    cases hold.symm.trans heq
  | release h | notify h | construct h | throwEarly h | throwLate h | relock _ h | register h
  | unlock h | forget h => cases hpc

/-!
### Runs
-/

-- A thread that the mutex knows is in an exclusive section, whatever has happened before.
omit [DecidableEq Tid] in
def Owned (s : State Tid) : Prop :=
  ∀ t, s.owner = some t → (s.threads t).exclusive = true

theorem owned_step (h : Owned s) (hstep : step s e = some s') : Owned s' := by
  obtain ⟨t, pc', hmove, hthreads⟩ := moved_of_step hstep
  intro t' ht'
  rw [hthreads]
  cases lockStep_of_move hmove with
  | keep howner hexclusive =>
    rw [howner] at ht'
    by_cases hne : t' = t
    . subst hne
      rw [Function.update_self, hexclusive]
      exact h t' ht'
    . rw [Function.update_of_ne hne]
      exact h t' ht'
  | lock hfree howner hexclusive =>
    injection howner.symm.trans ht' with heq
    subst heq
    rw [Function.update_self]
    exact hexclusive
  | unlock howner => cases howner.symm.trans ht'

structure Disciplined (s : State Tid) : Prop where
  holder : ∀ t, (s.threads t).exclusive = true → s.owner = some t
  handedOver : ∀ t, (s.threads t).handedOver = false

omit [DecidableEq Tid] in
theorem Disciplined.unlocks_own (h : Disciplined s) (ht : (s.threads t).unlocks = true) :
    s.owner = some t := by
  have hover := h.handedOver t
  have hholder := h.holder t
  generalize s.threads t = pc at *
  cases pc with
  | leaving held =>
    cases held with
    | true => exact hholder rfl
    | false => cases hover
  | reserved | registered => cases hover
  | _ => cases ht

theorem disciplined_step (h : Disciplined s) (htakes : TakesNoSlot s e)
    (hstep : step s e = some s') : Disciplined s' := by
  obtain ⟨t, pc', hmove, hthreads⟩ := moved_of_step hstep
  have hover := (takesNoSlot_iff hmove (h.handedOver t)).mp htakes
  have hlock := lockStep_of_move hmove
  constructor
  . intro t' ht'
    rw [hthreads] at ht'
    obtain ⟨rfl, hpc'⟩ | ⟨hne, hold⟩ := Threads.update_cases (Pc.exclusive · = true) ht'
    . cases hlock with
      | keep howner hexclusive =>
        rw [howner]
        exact h.holder t' (hexclusive ▸ hpc')
      | lock hfree howner => exact howner
      | unlock howner hexclusive => cases hexclusive.symm.trans hpc'
    . have hholder := h.holder t' hold
      cases hlock with
      | keep howner => exact howner.trans hholder
      | lock hfree => cases hfree.symm.trans hholder
      | unlock howner hexclusive hunlocks =>
        exact absurd (Option.some.inj (hholder.symm.trans (h.unlocks_own hunlocks))) hne
  . rw [hthreads]
    exact (Function.forall_update_iff s.threads fun _ pc => pc.handedOver = false).mpr
      ⟨hover, fun t' _ => h.handedOver t'⟩

omit [DecidableEq Tid] in
theorem Disciplined.exclusive (h : Disciplined s) : Exclusive s := by
  intro t t' ht ht'
  exact Option.some.inj ((h.holder t ht).symm.trans (h.holder t' ht'))

theorem unlocksOwn_of_takesNoSlot {es : List (Event Tid)} (h : Disciplined s)
    (hrun : machine.run s es = some s') (htakes : machine.Along TakesNoSlot s es) :
    machine.Along UnlocksOwn s es ∧ Disciplined s' := by
  induction es generalizing s with
  | nil =>
    injection hrun with hrun
    exact ⟨trivial, hrun ▸ h⟩
  | cons e es ih =>
    obtain ⟨mid, hmid, hrun⟩ := Machine.run_cons hrun
    obtain ⟨htake, htakes⟩ := htakes
    obtain ⟨halong, hlast⟩ := ih (disciplined_step h htake hmid) hrun (htakes mid hmid)
    refine ⟨Machine.along_cons ?_ hmid halong, hlast⟩
    cases e with
    | call | acquire => trivial
    | next t ok => exact h.unlocks_own

-- A handler that has got a slot ends with an unlock that is not its own.
theorem not_unlocksOwn_of_handedOver {es : List (Event Tid)} (howned : Owned s)
    (hover : (s.threads t).handedOver = true) (hrun : machine.run s es = some s')
    (hidle : ∀ t, s'.threads t = .idle) : ¬machine.Along UnlocksOwn s es := by
  induction es generalizing s with
  | nil =>
    injection hrun with hrun
    rw [hrun, hidle] at hover
    cases hover
  | cons e es ih =>
    rintro ⟨hown, halong⟩
    obtain ⟨mid, hmid, hrun⟩ := Machine.run_cons hrun
    obtain ⟨t', pc', hmove, hthreads⟩ := moved_of_step hmid
    refine ih (owned_step howned hmid) ?_ hrun (halong mid hmid)
    rw [hthreads]
    by_cases hne : t = t'
    . subst hne
      rw [Function.update_self]
      refine (handedOver_of_move hmove hover).resolve_right fun hpc => ?_
      rw [hpc] at hmove
      cases hmove
      have hexclusive := howned t (hown (by rw [hpc]; rfl))
      rw [hpc] at hexclusive
      cases hexclusive
    . rw [Function.update_of_ne hne]
      exact hover

theorem takesNoSlot_of_unlocksOwn {es : List (Event Tid)} (howned : Owned s) (h : Disciplined s)
    (hrun : machine.run s es = some s') (hidle : ∀ t, s'.threads t = .idle)
    (hown : machine.Along UnlocksOwn s es) : machine.Along TakesNoSlot s es := by
  induction es generalizing s with
  | nil => trivial
  | cons e es ih =>
    obtain ⟨mid, hmid, hrun⟩ := Machine.run_cons hrun
    have hrest := hown.2 mid hmid
    have howned' := owned_step howned hmid
    have htake : TakesNoSlot s e := by
      obtain ⟨t, pc', hmove, hthreads⟩ := moved_of_step hmid
      rw [takesNoSlot_iff hmove (h.handedOver t), ← Bool.not_eq_true]
      intro hover
      refine not_unlocksOwn_of_handedOver (t := t) howned' ?_ hrun hidle hrest
      rw [hthreads, Function.update_self]
      exact hover
    exact Machine.along_cons htake hmid (ih howned' (disciplined_step h htake hmid) hrun hrest)

theorem disciplined_init : Disciplined (@machine Tid _).init where
  holder := fun _ h => nomatch h
  handedOver := fun _ => rfl

/--
As long as no handler takes a slot, threads unlock what they hold and exclude each other. In a
run that has ended this is the only way.
-/
theorem lock_discipline (s : State Tid) (es : List (Event Tid))
    (hrun : machine.run machine.init es = some s) :
    (machine.Along TakesNoSlot machine.init es →
        machine.Along UnlocksOwn machine.init es ∧ Exclusive s)
      ∧ ((∀ t, s.threads t = .idle) → machine.Along UnlocksOwn machine.init es →
        machine.Along TakesNoSlot machine.init es) := by
  constructor
  . intro htakes
    obtain ⟨hown, hlast⟩ := unlocksOwn_of_takesNoSlot disciplined_init hrun htakes
    exact ⟨hown, hlast.exclusive⟩
  . intro hidle hown
    exact takesNoSlot_of_unlocksOwn (fun _ h => nomatch h) disciplined_init hrun hidle hown

-- Both handlers of the acceptor and of the connector are late, their keys are not known any more.
def overlapping : List (Event Bool) :=
  .call false .listen :: List.replicate 3 (.next false true)
    ++ [.call false (.newSocket ⟨true, 9⟩), .call true .connect]
    ++ List.replicate 3 (.next false true) ++ List.replicate 3 (.next true true)
    ++ [.call true (.newSocket ⟨false, 7⟩), .call false (.error ⟨1, 0⟩)]
    ++ List.replicate 3 (.next true true) ++ List.replicate 3 (.next false true)

def handled : List (Event Bool) :=
  .call false .listen :: List.replicate 3 (.next false true)
    ++ .call false (.newSocket ⟨true, 1⟩) :: List.replicate 10 (.next false true)

theorem lock_discipline_overlapping :
    (∃ s, machine.run machine.init overlapping = some s
        ∧ machine.Along UnlocksOwn machine.init overlapping ∧ Exclusive s)
      ∧ ∃ s, machine.run machine.init handled = some s ∧ (∀ t, s.threads t = .idle)
        ∧ ¬machine.Along UnlocksOwn machine.init handled := by
  constructor
  . refine ⟨_, rfl, (lock_discipline _ overlapping rfl).1 ?_⟩
    unfold overlapping
    repeat' first
      | exact trivial
      | refine Machine.along_cons ?_ rfl ?_
    all_goals rintro _ ⟨⟩
    . exact Or.inl (by decide)
    . exact Or.inl (by decide)
  . have hrun : ∃ s, machine.run machine.init handled = some s ∧ ∀ t, s.threads t = .idle :=
      ⟨_, rfl, fun t => by cases t <;> rfl⟩
    obtain ⟨s, hrun, hidle⟩ := hrun
    refine ⟨s, hrun, hidle, ?_⟩
    intro hown
    have htakes : machine.Along TakesNoSlot machine.init
        (handled.take 6 ++ .next false true :: handled.drop 7) :=
      (lock_discipline s handled hrun).2 hidle hown
    have hslot := Machine.of_along rfl htakes ⟨true, 1⟩ rfl
    revert hslot
    decide
def accepted : List (Event Bool) :=
  [.call false .listen, .next false true, .next false true, .next false true]
    ++ .call false (.newSocket ⟨true, 1⟩) :: List.replicate 9 (.next false true)
    ++ [.call true .connect, .next true true]

-- The `std::unique_lock` of `false` takes the mutex away from `true`, and `false` gets in, too.
theorem not_exclusive_accepted :
    ∃ s, machine.run machine.init (accepted ++ [.next false true, .call false .connect, .next false true])
          = some s
      ∧ ¬machine.Along UnlocksOwn machine.init
          (accepted ++ [.next false true, .call false .connect, .next false true])
      ∧ ¬Exclusive s := by
  refine ⟨_, rfl, ?_, ?_⟩
  . intro hown
    have howner := Machine.of_along rfl hown rfl
    cases howner
  . intro hexclusive
    cases hexclusive false true rfl rfl

end Service
end Lax
