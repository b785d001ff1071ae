import Lax.Channel.Impl.ChannelMap

/-!
This module contains when the channel that `create` returns is the one in the map: exactly as long as
no other thread inserts one between its two sections.
-/

namespace Lax
namespace ChannelMap

variable {Key Config Tid : Type} [DecidableEq Key] [DecidableEq Tid] {s s' : State Key Config Tid}

-- What is in the map is what has been returned, and nothing is returned for a key without a channel.
structure InvAt (cp : Option (Ptr Key Config)) (returned : List (Option (Ptr Key Config))) :
    Prop where
  filterMap_eq : returned.filterMap id = cp.toList
  eq_nil : cp = none → returned = []

def Inv (s : State Key Config Tid) : Prop :=
  ∀ key, InvAt (s.map key) (s.returned key)

omit [DecidableEq Key] [DecidableEq Tid] in
theorem Inv.unique (h : Inv s) : Unique s := by
  intro key
  have hkey := h key
  unfold State.find
  cases hmap : s.map key with
  | none => exact Or.inl (hkey.eq_nil hmap)
  | some cp =>
    right
    refine ⟨cp, rfl, ?_⟩
    rw [hkey.filterMap_eq, hmap]
    rfl

theorem inv_check (h : Inv s) (t : Tid) (key : Key) (cfg : Config) : Inv (s.check t key cfg) := by
  unfold State.check
  cases hmap : s.map key with
  | none => exact h
  | some cp =>
    intro key'
    unfold State.give
    dsimp only
    by_cases heq : key' = key
    . subst heq
      rw [Function.update_self]
      constructor
      . rw [List.filterMap_append, (h key').filterMap_eq]
        apply List.append_nil
      . intro hnone
        rw [hmap] at hnone
        contradiction
    . rw [Function.update_of_ne heq]
      exact h key'

theorem inv_insert (h : Inv s) (t : Tid) {key : Key} (hmap : s.map key = none)
    (cp : Ptr Key Config) : Inv (s.insert t key cp) := by
  have hinsert : s.insert t key cp = {
      (s.goto t .idle).give key (some cp) with map := Function.update s.map key (some cp) } := by
    simp only [State.insert, State.give, State.goto, hmap]
  rw [hinsert]
  intro key'
  unfold State.give State.goto
  dsimp only
  by_cases heq : key' = key
  . subst heq
    rw [Function.update_self, Function.update_self, (h key').eq_nil hmap]
    exact ⟨rfl, fun hnone => nomatch hnone⟩
  . rw [Function.update_of_ne heq, Function.update_of_ne heq]
    exact h key'

omit [DecidableEq Tid] in
theorem inv_destroy (h : Inv s) (key : Key) : Inv (s.destroy key).2 := by
  unfold State.destroy
  cases hmap : s.map key with
  | none => exact h
  | some cp =>
    intro key'
    dsimp only
    by_cases heq : key' = key
    . subst heq
      rw [Function.update_self, Function.update_self]
      exact ⟨rfl, fun _ => rfl⟩
    . rw [Function.update_of_ne heq, Function.update_of_ne heq]
      exact h key'

theorem inv_step (h : Inv s) {e : Event Key Config Tid} (he : InsertsAbsent s e)
    (hstep : step s e = some s') : Inv s' := by
  unfold step at hstep
  cases e with
  | next t =>
    dsimp only at hstep
    cases hpc : s.threads t with
    | idle =>
      rw [hpc] at hstep
      contradiction
    | checked key cfg =>
      rw [hpc] at hstep
      injection hstep with hstep
      subst hstep
      exact h
    | made key cp =>
      rw [hpc] at hstep
      injection hstep with hstep
      subst hstep
      apply inv_insert h
      exact he key cp hpc
  | create t key cfg =>
    obtain ⟨-, hstep⟩ := Option.ite_none_right_eq_some.mp hstep
    injection hstep with hstep
    subst hstep
    apply inv_check h
  | find t key =>
    obtain ⟨-, hstep⟩ := Option.ite_none_right_eq_some.mp hstep
    injection hstep with hstep
    subst hstep
    exact h
  | destroy t key =>
    obtain ⟨-, hstep⟩ := Option.ite_none_right_eq_some.mp hstep
    injection hstep with hstep
    subst hstep
    apply inv_destroy h

-- Two channels have been returned for one key.
theorem not_unique_insert (h : Inv s) (t : Tid) {key : Key} {cp : Ptr Key Config}
    (hmap : s.map key = some cp) (cp' : Ptr Key Config) : ¬Unique (s.insert t key cp') := by
  intro hunique
  have hreturned : (s.insert t key cp').returned key = s.returned key ++ [some cp'] := by
    simp only [State.insert, State.give, State.goto, hmap, Function.update_self]
  have hkey := hunique key
  rw [hreturned] at hkey
  obtain hnil | ⟨cp'', -, hone⟩ := hkey
  . simp at hnil
  . rw [List.filterMap_append, (h key).filterMap_eq, hmap] at hone
    simp at hone

theorem unique_step_iff (h : Inv s) (e : Event Key Config Tid) :
    (∀ s', step s e = some s' → Unique s') ↔ InsertsAbsent s e := by
  constructor
  . intro hunique
    cases e with
    | next t =>
      intro key cp hpc
      cases hmap : s.map key with
      | none => rfl
      | some cp' =>
        exfalso
        apply not_unique_insert h t hmap cp
        apply hunique
        simp only [step, hpc]
        rfl
    | create t key cfg => trivial
    | find t key => trivial
    | destroy t key => trivial
  . exact fun he s' hstep => (inv_step h he hstep).unique

/--
In every interleaving, `create` returns the one channel of its key exactly as long as no thread gets to
its second section when the key is there again.
-/
theorem unique_iff (es : List (Event Key Config Tid)) :
    machine.Along (fun s e => ∀ s', step s e = some s' → Unique s') machine.init es
      ↔ machine.Along InsertsAbsent machine.init es := by
  apply Machine.along_congr_of Inv
  . exact fun s e s' h he hstep => inv_step h he hstep
  . exact fun s e h => unique_step_iff h e
  . exact fun key => ⟨rfl, fun _ => rfl⟩

-- Both threads look for the key before one of them inserts its channel.
theorem exists_two_created :
    ∃ s : State Nat Unit Bool, machine.Reachable s ∧ ¬Unique s := by
  refine ⟨_, ⟨[.create true 1 (), .create false 1 (), .next true, .next false, .next true,
    .next false], rfl⟩, ?_⟩
  intro hunique
  obtain hnil | ⟨cp, -, hone⟩ := hunique 1
  . exact List.cons_ne_nil _ _ hnil
  . have hlength : 2 = 1 := congrArg List.length hone
    contradiction

end ChannelMap
end Lax
