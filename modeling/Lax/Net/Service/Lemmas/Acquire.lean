import Lax.Net.Service.Lemmas.Ready
import Lax.Net.Service.Lemmas.Slots

/-!
This module contains whose session `acquire` returns. The sequence of an id is not looked at, and the
index of the first slot that is not there passes the check.
-/

namespace Lax
namespace Service

open SlotTable

variable {Tid : Type} {table table' : SlotTable} {id : SessionId}

-- `acquire` reads a slot that is there, and gets to the session with this id if it is registered.
structure AcquiresRight (table : SlotTable) (id : SessionId) : Prop where
  reads : table.acquire id ≠ none
  id_eq : ∀ sp, table.acquire id = some (some sp) → sp.id = id
  finds : ∀ index sp, table.held index = some sp → sp.id = id →
    table.acquire id = some (some sp)

/-!
### The cases of `acquire`
-/

theorem acquire_of_lt (hlt : id.index < table.sessions.length) :
    table.acquire id = some (table.held id.index) := by
  unfold acquire
  rw [if_neg (Nat.not_lt_of_lt hlt), held_eq table hlt, List.getElem?_eq_getElem hlt]
  rfl

theorem acquire_of_eq (heq : id.index = table.sessions.length) : table.acquire id = none := by
  unfold acquire
  rw [if_neg (Nat.not_lt_of_ge (Nat.le_of_eq heq)), List.getElem?_eq_none (Nat.le_of_eq heq.symm)]
  rfl

theorem acquire_of_gt (hgt : table.sessions.length < id.index) : table.acquire id = some none := by
  unfold acquire
  rw [if_pos hgt]

/-!
### Sessions are in the slots that their ids name
-/

def Indexed (table : SlotTable) : Prop :=
  ∀ index sp, table.held index = some sp → sp.id.index = index

theorem indexed_register (h : Indexed table) (sp : SessionPtr) : Indexed (table.register sp) := by
  intro index sp' hheld
  by_cases hne : index = sp.id.index
  . have hlt := lt_of_held _ hheld
    have hlength : (table.register sp).sessions.length = table.sessions.length := by
      apply length_modify
    rw [hne] at hheld hlt
    rw [hlength] at hlt
    have hsp : (table.register sp).held sp.id.index = some sp := by
      apply held_modify table hlt
    rw [hsp] at hheld
    injection hheld with hheld
    rw [← hheld, hne]
  . rw [held_register_of_ne hne] at hheld
    exact h index sp' hheld

variable [DecidableEq Tid] {s s' : State Tid} {e : Event Tid}

theorem indexed_step (h : Indexed s.table) (hstep : step s e = some s') : Indexed s'.table := by
  cases slotStep_of_step hstep with
  | quiet htable =>
    rw [htable]
    exact h
  | taken t id ht hnew =>
    intro index sp hheld
    rw [(freeSlot_of_newId hnew).held] at hheld
    exact h index sp hheld
  | registered t sp ht htable =>
    rw [htable]
    apply indexed_register h
  | removed id htable =>
    intro index sp hheld
    rw [htable] at hheld
    exact h index sp (held_of_error hheld)
  | thrown t index ht htable =>
    rw [htable]
    exact h

theorem indexed_of_reachable (h : (@machine Tid _).Reachable s) : Indexed s.table := by
  apply Machine.inv_of_reachable (fun s => Indexed s.table) _ _ h
  . exact fun index sp hheld => nomatch hheld
  . exact fun s e s' h hstep => indexed_step h hstep

/-!
### The right session
-/

omit [DecidableEq Tid] in
theorem acquiresRight_of_lt (h : Indexed table) (hlt : id.index < table.sessions.length) :
    AcquiresRight table id ↔ ∀ sp, table.held id.index = some sp → sp.id.seq = id.seq := by
  have hacquire := acquire_of_lt hlt
  constructor
  . intro hright sp hheld
    rw [hheld] at hacquire
    rw [hright.id_eq sp hacquire]
  . intro hseq
    constructor
    . rw [hacquire]
      exact fun hnone => nomatch hnone
    . intro sp hsp
      rw [hacquire] at hsp
      injection hsp with hsp
      have hindex := h id.index sp hsp
      have hseq' := hseq sp hsp
      obtain ⟨obj, seq, index⟩ := sp
      obtain ⟨seq', index'⟩ := id
      dsimp only at hindex hseq'
      rw [hindex, hseq']
    . intro index sp hheld hid
      have hindex := h index sp hheld
      rw [hid] at hindex
      rw [hacquire, hindex, hheld]

omit [DecidableEq Tid] in
theorem acquiresRight_of_gt (h : Indexed table) (hgt : table.sessions.length < id.index) :
    AcquiresRight table id := by
  have hacquire := acquire_of_gt hgt
  constructor
  . rw [hacquire]
    exact fun hnone => nomatch hnone
  . intro sp hsp
    rw [hacquire] at hsp
    exact nomatch hsp
  . intro index sp hheld hid
    have hlt := lt_of_held table hheld
    rw [← h index sp hheld, hid] at hlt
    omega

/--
`acquire` is right about an id exactly when its index is not the one after the last slot, and the slot it
names, if there is one, has no session of another sequence in it.
-/
theorem acquiresRight_iff (s : State Tid) (h : machine.Reachable s) (id : SessionId) :
    AcquiresRight s.table id
      ↔ id.index ≠ s.table.sessions.length
        ∧ ∀ sp, s.table.held id.index = some sp → sp.id.seq = id.seq := by
  have hindexed := indexed_of_reachable h
  obtain hlt | heq | hgt := Nat.lt_trichotomy id.index s.table.sessions.length
  . rw [acquiresRight_of_lt hindexed hlt]
    exact ⟨fun hseq => ⟨Nat.ne_of_lt hlt, hseq⟩, fun hcond => hcond.2⟩
  . constructor
    . exact fun hright => absurd (acquire_of_eq heq) hright.reads
    . exact fun hcond => absurd heq hcond.1
  . apply iff_of_true
    . apply acquiresRight_of_gt hindexed hgt
    . refine ⟨Nat.ne_of_gt hgt, ?_⟩
      intro sp hheld
      rw [held_eq_none_of_le _ (Nat.le_of_lt hgt)] at hheld
      contradiction

-- One session comes and goes, and the next one gets its slot.
def reconnecting : List (Event Unit) :=
  notifying ++ List.replicate 6 (.next () true)
    ++ .call () (.error ⟨1, 0⟩) :: List.replicate 3 (.next () true)
    ++ .call () (.newSocket ⟨true, 1⟩) :: List.replicate 10 (.next () true)

theorem acquiresRight_iff_reconnecting :
    ∃ s, machine.run machine.init reconnecting = some s ∧ AcquiresRight s.table ⟨2, 0⟩ := by
  refine ⟨_, rfl, ?_⟩
  rw [acquiresRight_iff _ ⟨reconnecting, rfl⟩]
  refine ⟨by decide, ?_⟩
  intro sp hheld
  have hsp : ⟨1, ⟨2, 0⟩⟩ = sp := Option.some.inj hheld
  rw [← hsp]

-- The id of the first session gets to the second one, and the index of the slot after that is read.
theorem exists_acquires_wrong :
    ∃ s, machine.run machine.init reconnecting = some s
      ∧ s.table.acquire ⟨1, 0⟩ = some (some ⟨1, ⟨2, 0⟩⟩)
      ∧ s.table.acquire ⟨1, 1⟩ = none
      ∧ ¬AcquiresRight s.table ⟨1, 0⟩
      ∧ ¬AcquiresRight s.table ⟨1, 1⟩ := by
  refine ⟨_, rfl, rfl, rfl, ?_, ?_⟩
  . intro hright
    have hid := hright.id_eq _ rfl
    contradiction
  . intro hright
    exact hright.reads rfl

end Service
end Lax
