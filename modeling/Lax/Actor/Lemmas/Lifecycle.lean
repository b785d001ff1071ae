import Lax.Actor.Impl.Actor
import Lax.Actor.Lemmas.TypeObjectContainer

/-!
This module contains when the components of an actor have ended with it: the actor starts them and does
not finish them.
-/

namespace Lax
namespace Actor

variable {Comp Ty : Type} [DecidableEq Comp] {types : Comp → List Ty} {component : Ty}
  {a : Actor Comp Ty}

-- How often `on_finish` has been called is never ahead of how often `on_start` has been successful.
def Paired (calls : List (Call Comp)) : Prop :=
  ∀ comp l, l <+: calls → l.count (.onFinish comp) ≤ l.count (.onStart comp true)

def startOf (comp : Comp) : Call Comp → Option Bool
  | .onStart comp' rc => if comp' = comp then some rc else none
  | .onFinish _ => none

-- What `on_start` has returned for the last time.
def lastStart (calls : List (Call Comp)) (comp : Comp) : Option Bool :=
  (calls.filterMap (startOf comp)).getLast?

def Event.Finishes : Event Comp → Prop
  | .finish => True
  | .taskFinish _ => True
  | .destroy => True
  | _ => False

structure Follows (component : Ty) (s : Program Comp Ty) (e : Event Comp) (s' : Program Comp Ty) :
    Prop where
  paired : Paired s'.actor.calls
  finished : e.Finishes → s.actor.state = .started →
    ∀ comp ∈ s'.actor.comps.getTypes component, s'.actor.started comp = false

-- The last start of every component has failed when the actor is finished.
def Careful (component : Ty) (s : Program Comp Ty) (e : Event Comp) : Prop :=
  e.Finishes → s.actor.state = .started →
    ∀ comp ∈ s.actor.comps.getTypes component, lastStart s.actor.calls comp ≠ some true

/-!
### Components
-/

-- Nobody calls `on_finish`.
structure Good (a : Actor Comp Ty) : Prop where
  started_iff : ∀ comp, a.started comp = true ↔ lastStart a.calls comp = some true
  not_mem : ∀ comp, .onFinish comp ∉ a.calls

theorem good_ctor : (ctor : Actor Comp Ty).Good := by
  constructor
  . simp [ctor, lastStart]
  . simp [ctor]

theorem Good.paired (h : a.Good) : Paired a.calls := by
  intro comp l hl
  have hnot : .onFinish comp ∉ l := fun hmem => h.not_mem comp (hl.subset hmem)
  rw [List.count_eq_zero_of_not_mem hnot]
  apply Nat.zero_le

theorem lastStart_append (calls : List (Call Comp)) (comp comp' : Comp) (rc : Bool) :
    lastStart (calls ++ [.onStart comp' rc]) comp
      =
    if comp' = comp then some rc else lastStart calls comp := by
  unfold lastStart
  rw [List.filterMap_append]
  split
  . next heq => simp [startOf, heq]
  . next hne => simp [startOf, hne]

theorem Good.startComponent (h : a.Good) (onStart : Hook Comp) (comp : Comp) :
    (startComponent onStart a comp).1.Good := by
  unfold Actor.startComponent
  constructor
  . intro comp'
    dsimp only
    rw [lastStart_append]
    by_cases heq : comp = comp'
    . subst heq
      rw [Function.update_self, if_pos rfl, Option.some_inj]
    . rw [Function.update_of_ne (Ne.symm heq), if_neg heq]
      exact h.started_iff comp'
  . intro comp'
    simpa using h.not_mem comp'

theorem Good.start (h : a.Good) (rc : Bool) (onStart : Hook Comp) :
    (a.start component rc onStart).2.Good := by
  unfold Actor.start
  split
  . have hgood : (a.comps.apply component (Actor.startComponent onStart) a).1.Good := by
      apply TypeObjectContainer.inv_apply (P := Good) _ h
      exact fun a comp h => h.startComponent onStart comp
    exact ⟨hgood.started_iff, hgood.not_mem⟩
  . exact h

omit [DecidableEq Comp] in
theorem finish_eq (a : Actor Comp Ty) :
    a.finish = { a with state := if a.state = .started then .finished else a.state } := by
  unfold finish
  cases a with
  | mk state comps started calls =>
    cases state with
    | constructed => rfl
    | started => rfl
    | finished => rfl

theorem Good.finish (h : a.Good) : a.finish.Good := by
  rw [finish_eq]
  exact ⟨h.started_iff, h.not_mem⟩

variable [DecidableEq Ty]

/-!
### Programs
-/

variable {s s' : Program Comp Ty}

theorem Good.step {e : Event Comp} (h : s.actor.Good) (hstep : s.step types component e = some s') :
    s'.actor.Good := by
  obtain ⟨-, hstep⟩ := Option.ite_none_right_eq_some.mp hstep
  cases e with
  | addComponent comp =>
    injection hstep with heq
    subst heq
    exact ⟨h.started_iff, h.not_mem⟩
  | start rc onStart =>
    injection hstep with heq
    exact heq ▸ h.start rc onStart
  | execute =>
    injection hstep with heq
    exact heq ▸ h
  | finish =>
    injection hstep with heq
    exact heq ▸ h.finish
  | adapt =>
    injection hstep with heq
    exact heq ▸ h
  | giveUp x =>
    injection hstep with heq
    exact heq ▸ h
  | taskStart x rc onStart =>
    obtain ⟨task, -, rfl⟩ := Option.map_eq_some_iff.mp hstep
    exact h.start rc onStart
  | taskExecute x runnerId =>
    obtain ⟨task, -, rfl⟩ := Option.map_eq_some_iff.mp hstep
    unfold Program.taskExecute
    split
    . exact h
    . exact h
  | taskFinish x =>
    obtain ⟨task, -, rfl⟩ := Option.map_eq_some_iff.mp hstep
    exact h.finish
  | destroy =>
    obtain ⟨-, hstep⟩ := Option.ite_none_right_eq_some.mp hstep
    injection hstep with heq
    exact heq ▸ h.finish

-- The actor is all that is finished.
theorem actor_of_finishes {e : Event Comp} (he : e.Finishes)
    (hstep : s.step types component e = some s') : s'.actor = s.actor.finish := by
  obtain ⟨-, hstep⟩ := Option.ite_none_right_eq_some.mp hstep
  cases e with
  | finish =>
    injection hstep with heq
    exact heq ▸ rfl
  | taskFinish x =>
    obtain ⟨task, -, rfl⟩ := Option.map_eq_some_iff.mp hstep
    rfl
  | destroy =>
    obtain ⟨-, hstep⟩ := Option.ite_none_right_eq_some.mp hstep
    injection hstep with heq
    exact heq ▸ rfl
  | _ => cases he

theorem follows_iff {e : Event Comp} (h : s.actor.Good) (hstep : s.step types component e = some s') :
    Follows component s e s' ↔ Careful component s e := by
  have hiff : ∀ comp, s.actor.started comp = false ↔ lastStart s.actor.calls comp ≠ some true := by
    intro comp
    rw [← Bool.not_eq_true, h.started_iff]
  constructor
  . intro hfollows he hstarted comp hcomp
    have hfinished := hfollows.finished he hstarted comp
    rw [actor_of_finishes he hstep, finish_eq] at hfinished
    exact (hiff comp).mp (hfinished hcomp)
  . intro hcareful
    constructor
    . exact (h.step hstep).paired
    . intro he hstarted comp hcomp
      rw [actor_of_finishes he hstep, finish_eq] at hcomp ⊢
      exact (hiff comp).mpr (hcareful he hstarted comp hcomp)

/--
In every program, the components of an actor follow it exactly as long as it is only finished when the
last start of each of them has failed, or has not been tried.
-/
theorem follows_along_iff (types : Comp → List Ty) (component : Ty) (es : List (Event Comp)) :
    (Program.machine types component).Along
        (fun s e => ∀ s', s.step types component e = some s' → Follows component s e s')
        (Program.machine types component).init es
      ↔ (Program.machine types component).Along
        (fun s e => (s.step types component e).isSome → Careful component s e)
        (Program.machine types component).init es := by
  apply Machine.along_step_congr fun s => s.actor.Good
  . exact fun s e s' h _ hstep => h.step hstep
  . exact fun s e s' h hstep => follows_iff h hstep
  . exact good_ctor

-- A component is added and started, and it is still started when the actor is finished.
theorem exists_not_follows :
    ∃ s s', (Program.machine (fun _ : Unit => [()]) ()).run
          (Program.machine (fun _ : Unit => [()]) ()).init [.addComponent (), .start true fun _ _ => true]
        = some s
      ∧ s.step (fun _ : Unit => [()]) () .finish = some s' ∧ ¬Follows () s .finish s' := by
  refine ⟨_, _, rfl, rfl, ?_⟩
  intro hfollows
  have hstarted := hfollows.finished trivial rfl () List.mem_cons_self
  contradiction

end Actor
end Lax
