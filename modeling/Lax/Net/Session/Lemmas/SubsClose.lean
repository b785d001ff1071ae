import Lax.Net.Session.Impl.SubsClose
import Lax.Util.Lemmas.Sequence

/-!
This module contains the index and the keys of the subscriptions to the end of a session. Whatever
removes a subscription leaves its key behind for good.
-/

namespace Lax
namespace SubsClose

variable {β : Type} {s s' : SubsClose β} {key : Nat} {id : UInt32} {cb : β}

def live (s : SubsClose β) (id : UInt32) : List Nat :=
  ((s.subs id).getD []).map Prod.fst

structure Sound (s : SubsClose β) : Prop where
  index_iff : ∀ key id, s.index key = some id ↔ key ∈ s.live id
  unique : ∀ id, (s.live id).Nodup
  available : ∀ key, 1 ≤ key → key < endKey → (∃ id, key ∈ s.live id) ∨ s.keySeq.Available key
  -- All subscriptions that are live have their keys in a list of less than 65534 keys.
  subscribes : ∀ keys : List Nat, (∀ id, s.live id ⊆ keys) → keys.length < endKey - 1 →
    ∀ id cb, s.subscribe id cb ≠ none

/-!
### What the operations do
-/

structure Subscribed (s : SubsClose β) (id : UInt32) (key : Nat) (s' : SubsClose β) : Prop where
  next : s.keySeq.next = some (key, s'.keySeq)
  index_eq : s'.index = Function.update s.index key (some id)
  live_eq : ∀ id', s'.live id' = if id' = id then s.live id ++ [key] else s.live id'

theorem subscribed (h : s.subscribe id cb = some (key, s')) : Subscribed s id key s' := by
  unfold subscribe at h
  split at h
  . contradiction
  . next hnext =>
    injection h with h
    injection h with hkey hs
    subst hkey hs
    refine ⟨hnext, rfl, ?_⟩
    intro id'
    unfold live
    by_cases heq : id' = id
    . subst heq
      simp
    . simp [heq]

theorem step_subscribe (h : SubsClose.step s (.subscribe id cb) = some s') :
    s' = s ∨ ∃ key, Subscribed s id key s' := by
  dsimp only [SubsClose.step] at h
  split at h
  . injection h with h
    exact Or.inl h.symm
  . next key _ hsub =>
    injection h with h
    subst h
    exact Or.inr ⟨key, subscribed hsub⟩

theorem subscribe_eq_none (h : s.subscribe id cb = none) : s.keySeq.next = none := by
  unfold subscribe at h
  split at h
  . assumption
  . contradiction

theorem keySeq_unsubscribe (s : SubsClose β) (key : Nat) : (s.unsubscribe key).keySeq = s.keySeq := by
  unfold unsubscribe
  split
  . rfl
  . split <;> rfl

theorem live_unsubscribe (s : SubsClose β) (key : Nat) (id : UInt32) :
    (s.unsubscribe key).live id
      =
    if s.index key = some id then (s.live id).filter (· ≠ key) else s.live id := by
  unfold unsubscribe
  cases hindex : s.index key with
  | none => simp
  | some id' =>
    unfold live
    by_cases heq : id' = id
    . subst heq
      cases hsubs : s.subs id' <;> simp [hsubs, List.filter_map, Function.comp_def]
    . cases hsubs : s.subs id' <;> simp [hsubs, heq, Ne.symm heq]

theorem keySeq_post (s : SubsClose β) (id : UInt32) : (s.post id).2.keySeq = s.keySeq := by
  unfold post
  split <;> rfl

theorem live_post (s : SubsClose β) (id id' : UInt32) :
    (s.post id).2.live id' = if id' = id then [] else s.live id' := by
  unfold post live
  split
  . next hsubs =>
    split
    . next heq => rw [heq, hsubs]; rfl
    . rfl
  . by_cases heq : id' = id
    . subst heq
      simp
    . simp [heq]

theorem index_post_of_nil (h : s.live id = []) : (s.post id).2.index = s.index := by
  unfold live at h
  unfold post
  split
  . rfl
  . next vec hsubs =>
    rw [hsubs, Option.getD_some, List.map_eq_nil_iff] at h
    rw [h]
    rfl

/-!
### Without removals
-/

structure Inv (s : SubsClose β) : Prop where
  index_iff : ∀ key id, s.index key = some id ↔ key ∈ s.live id
  unique : ∀ id, (s.live id).Nodup
  valid : s.keySeq.Valid fun key => s.index key ≠ none
  beginSeq_eq : s.keySeq.beginSeq = 1
  endSeq_eq : s.keySeq.endSeq = endKey

theorem Inv.ne_none_iff (h : s.Inv) : s.index key ≠ none ↔ ∃ id, key ∈ s.live id := by
  rw [Option.ne_none_iff_exists']
  exact exists_congr fun id => h.index_iff key id

theorem Inv.sound (h : s.Inv) : s.Sound := by
  refine ⟨h.index_iff, h.unique, ?_, ?_⟩
  . intro key hle _
    rw [← h.ne_none_iff, h.valid.available_iff (h.beginSeq_eq ▸ hle)]
    exact Classical.em _
  . intro keys hkeys hlt id cb hnone
    have hmem : ∀ key, s.index key ≠ none → key ∈ keys := by
      intro key hkey
      obtain ⟨id, hlive⟩ := h.ne_none_iff.mp hkey
      exact hkeys id hlive
    have hlength := h.valid.le_length (subscribe_eq_none hnone) hmem
    rw [h.beginSeq_eq, h.endSeq_eq] at hlength
    omega

theorem inv_ctor : (ctor : SubsClose β).Inv := by
  constructor
  . intro key id
    constructor <;> exact fun h => nomatch h
  . exact fun _ => List.nodup_nil
  . apply (Sequence.valid_ctor (by decide) 100).congr
    intro key
    exact ⟨False.elim, fun h => h rfl⟩
  . apply Sequence.beginSeq_acquire
  . apply Sequence.endSeq_acquire

theorem Inv.subscribed (h : s.Inv) (hsub : Subscribed s id key s') : s'.Inv := by
  have hnext := h.valid.next hsub.next
  have hkey : s.index key = none := Decidable.of_not_not hnext.fresh
  have hfresh : ∀ id, key ∉ s.live id := by
    intro id hmem
    have := (h.index_iff key id).mpr hmem
    rw [hkey] at this
    contradiction
  constructor
  . intro key' id'
    have hiff := h.index_iff key' id'
    rw [hsub.index_eq, hsub.live_eq]
    by_cases heq : key' = key
    . subst heq
      rw [Function.update_self, Option.some.injEq]
      by_cases hid : id' = id
      . subst hid
        simp
      . simp [hid, Ne.symm hid, hfresh]
    . rw [Function.update_of_ne heq, hiff]
      by_cases hid : id' = id
      . subst hid
        simp [heq]
      . simp [hid]
  . intro id'
    rw [hsub.live_eq]
    split
    . rw [← List.concat_eq_append]
      exact (h.unique id).concat (hfresh id)
    . exact h.unique id'
  . rw [hsub.index_eq]
    exact hnext.valid.update id
  . rw [hnext.beginSeq_eq, h.beginSeq_eq]
  . rw [hnext.endSeq_eq, h.endSeq_eq]

-- The step removes no subscription.
def Kept (s : SubsClose β) : Event β → Prop
  | .subscribe _ _ => True
  | .unsubscribe key => ∀ id, key ∉ s.live id
  | .post id => s.live id = []

theorem Inv.step (h : s.Inv) {e : Event β} (hkept : s.Kept e) (hstep : step s e = some s') :
    s'.Inv := by
  cases e with
  | subscribe id cb =>
    obtain rfl | ⟨key, hsub⟩ := step_subscribe hstep
    . exact h
    . exact h.subscribed hsub
  | unsubscribe key =>
    injection hstep with hstep
    subst hstep
    have hindex : s.index key = none := by
      by_contra hne
      obtain ⟨id, hlive⟩ := h.ne_none_iff.mp hne
      exact hkept id hlive
    unfold unsubscribe
    rw [hindex]
    exact h
  | post id =>
    injection hstep with hstep
    subst hstep
    have hindex := index_post_of_nil hkept
    have hlive : ∀ id', (s.post id).2.live id' = s.live id' := by
      intro id'
      rw [live_post]
      split
      . next heq => rw [heq, hkept]
      . rfl
    constructor
    . simpa only [hindex, hlive] using h.index_iff
    . simpa only [hlive] using h.unique
    . simpa only [hindex, keySeq_post] using h.valid
    . rw [keySeq_post, h.beginSeq_eq]
    . rw [keySeq_post, h.endSeq_eq]

/-!
### Lost keys
-/

-- A key that is neither live nor can be handed out again.
def Lost (s : SubsClose β) : Prop :=
  ∃ key, 1 ≤ key ∧ key < endKey ∧ ¬s.keySeq.Available key ∧ ∀ id, key ∉ s.live id

theorem Lost.not_sound (h : s.Lost) : ¬s.Sound := by
  obtain ⟨key, hle, hlt, havailable, hlive⟩ := h
  intro hsound
  obtain ⟨id, hid⟩ | h := hsound.available key hle hlt
  . exact hlive id hid
  . exact havailable h

theorem Lost.step (h : s.Lost) {e : Event β} (hstep : step s e = some s') : s'.Lost := by
  obtain ⟨key, hle, hlt, havailable, hlive⟩ := h
  refine ⟨key, hle, hlt, ?_⟩
  cases e with
  | subscribe id cb =>
    obtain rfl | ⟨key', hsub⟩ := step_subscribe hstep
    . exact ⟨havailable, hlive⟩
    . obtain ⟨hvalue, hrest⟩ := Sequence.available_of_next hsub.next
      refine ⟨fun h => havailable (hrest key h), ?_⟩
      intro id'
      rw [hsub.live_eq]
      split
      . rw [List.mem_append, List.mem_singleton]
        rintro (hmem | rfl)
        . exact hlive id hmem
        . exact havailable hvalue
      . exact hlive id'
  | unsubscribe key' =>
    injection hstep with hstep
    subst hstep
    rw [keySeq_unsubscribe]
    refine ⟨havailable, ?_⟩
    intro id
    rw [live_unsubscribe]
    split
    . exact fun hmem => hlive id (List.mem_of_mem_filter hmem)
    . exact hlive id
  | post id =>
    injection hstep with hstep
    subst hstep
    rw [keySeq_post]
    refine ⟨havailable, ?_⟩
    intro id'
    rw [live_post]
    split
    . exact List.not_mem_nil
    . exact hlive id'

theorem Inv.not_available (h : s.Inv) (hlive : key ∈ s.live id) :
    1 ≤ key ∧ key < endKey ∧ ¬s.keySeq.Available key := by
  have htaken : s.index key ≠ none := h.ne_none_iff.mpr ⟨id, hlive⟩
  have hrange := (h.valid.range key).mpr (Or.inl htaken)
  have hend := h.valid.le_end
  rw [h.beginSeq_eq] at hrange
  rw [h.endSeq_eq] at hend
  refine ⟨hrange.1, by omega, ?_⟩
  rw [h.valid.available_iff (h.beginSeq_eq ▸ hrange.1)]
  exact not_not_intro htaken

theorem Inv.lost (h : s.Inv) {e : Event β} (hkept : ¬s.Kept e) (hstep : SubsClose.step s e = some s') :
    s'.Lost := by
  cases e with
  | subscribe id cb => exact absurd trivial hkept
  | unsubscribe key =>
    injection hstep with hstep
    subst hstep
    unfold Kept at hkept
    push Not at hkept
    obtain ⟨id, hlive⟩ := hkept
    obtain ⟨hle, hlt, havailable⟩ := h.not_available hlive
    refine ⟨key, hle, hlt, by rwa [keySeq_unsubscribe], ?_⟩
    intro id' hmem
    rw [live_unsubscribe] at hmem
    split at hmem
    . simp at hmem
    . next hne => exact hne ((h.index_iff key id').mpr hmem)
  | post id =>
    injection hstep with hstep
    subst hstep
    obtain ⟨key, hlive⟩ := List.exists_mem_of_ne_nil _ hkept
    have hindex := (h.index_iff key id).mpr hlive
    obtain ⟨hle, hlt, havailable⟩ := h.not_available hlive
    refine ⟨key, hle, hlt, by rwa [keySeq_post], ?_⟩
    intro id' hmem
    rw [live_post] at hmem
    split at hmem
    . exact List.not_mem_nil hmem
    . next hne =>
      have := (h.index_iff key id').mpr hmem
      rw [hindex] at this
      injection this with this
      exact hne this.symm

/-!
### Runs
-/

theorem Inv.along (h : s.Inv) {es : List (Event β)} (hrun : (machine β).run s es = some s')
    (hlost : ¬s'.Lost) : (machine β).Along Kept s es := by
  induction es generalizing s with
  | nil => trivial
  | cons e es ih =>
    obtain ⟨mid, hmid, hrun⟩ := Machine.run_cons hrun
    by_cases hkept : s.Kept e
    . exact Machine.along_cons hkept hmid (ih (h.step hkept hmid) hrun)
    . have hmid := h.lost hkept hmid
      exact absurd (Machine.inv_of_run Lost (fun _ _ _ h hstep => h.step hstep) hrun hmid) hlost

/--
The index and the subscriptions agree just if nothing that is live has ever been removed.
-/
theorem sound_iff_along (es : List (Event β)) (s : SubsClose β)
    (hrun : (machine β).run ctor es = some s) :
    Sound s ↔ (machine β).Along Kept ctor es := by
  constructor
  . intro h
    exact inv_ctor.along hrun fun hlost => hlost.not_sound h
  . intro h
    have hinv := Machine.inv_of_along Inv (fun _ _ _ hinv hkept => hinv.step hkept) hrun h inv_ctor
    exact hinv.sound

set_option maxRecDepth 8000 in
theorem sound_iff_along_post :
    let es : List (Event Unit) := [.subscribe 7 (), .subscribe 8 (), .unsubscribe 9, .post 5]
    ∃ s, (machine Unit).run ctor es = some s ∧ s.live 7 = [1] ∧ s.live 8 = [2] ∧ Sound s := by
  intro es
  refine ⟨_, rfl, rfl, rfl, ?_⟩
  rw [sound_iff_along es _ rfl]
  refine Machine.along_cons trivial rfl (Machine.along_cons trivial rfl (Machine.along_cons ?_ rfl
    (Machine.along_cons rfl rfl trivial)))
  intro id
  let subs : UInt32 → Option (List (Nat × Unit)) :=
    Function.update (Function.update (fun _ => none) 7 (some [(1, ())])) 8 (some [(2, ())])
  change 9 ∉ ((subs id).getD []).map Prod.fst
  unfold subs
  rw [Function.update_apply, Function.update_apply]
  split
  . decide
  . split <;> decide

set_option maxRecDepth 8000 in
-- The subscription has gone, its key is still in the index.
theorem exists_not_sound :
    ∃ s, (machine Unit).run ctor [.subscribe 7 (), .unsubscribe 1] = some s ∧ ¬Sound s := by
  refine ⟨_, rfl, ?_⟩
  intro h
  have hmem := (h.index_iff 1 7).mp rfl
  contradiction

/-!
### What is live is in the index

This stays true whatever is removed. `drawn` are the keys that have been handed out.
-/

structure Indexed (s : SubsClose β) (drawn : List Nat) : Prop where
  index_eq : ∀ id, ∀ key ∈ s.live id, s.index key = some id
  unique : ∀ id, (s.live id).Nodup
  mem_drawn : ∀ key, s.index key ≠ none → key ∈ drawn
  valid : s.keySeq.Valid (· ∈ drawn)

variable {drawn : List Nat}

theorem indexed_ctor : (ctor : SubsClose β).Indexed [] := by
  constructor
  . exact fun _ _ h => absurd h List.not_mem_nil
  . exact fun _ => List.nodup_nil
  . exact fun _ h => absurd rfl h
  . apply (Sequence.valid_ctor (by decide) 100).congr
    exact fun key => iff_of_false (fun h => h) List.not_mem_nil

theorem Indexed.fresh (h : s.Indexed drawn) (hsub : Subscribed s id key s') :
    key ∉ drawn ∧ s.index key = none := by
  have hfresh := (h.valid.next hsub.next).fresh
  refine ⟨hfresh, ?_⟩
  by_contra hne
  exact hfresh (h.mem_drawn key hne)

theorem Indexed.not_live (h : s.Indexed drawn) (hindex : s.index key = none) (id : UInt32) :
    key ∉ s.live id := by
  intro hmem
  rw [h.index_eq id key hmem] at hindex
  contradiction

theorem Indexed.subscribed (h : s.Indexed drawn) (hsub : Subscribed s id key s') :
    s'.Indexed (key :: drawn) := by
  obtain ⟨hfresh, hindex⟩ := h.fresh hsub
  constructor
  . intro id' key' hmem
    rw [hsub.live_eq] at hmem
    rw [hsub.index_eq]
    by_cases heq : key' = key
    . subst heq
      rw [Function.update_self]
      split at hmem
      . next hid => rw [hid]
      . exact absurd hmem (h.not_live hindex id')
    . rw [Function.update_of_ne heq]
      apply h.index_eq
      split at hmem
      . next hid =>
        rw [List.mem_append, List.mem_singleton, or_iff_left heq] at hmem
        rw [hid]
        exact hmem
      . exact hmem
  . intro id'
    rw [hsub.live_eq]
    split
    . rw [← List.concat_eq_append]
      exact (h.unique id).concat (h.not_live hindex id)
    . exact h.unique id'
  . intro key' hne
    rw [hsub.index_eq] at hne
    by_cases heq : key' = key
    . rw [heq]
      exact List.mem_cons_self
    . rw [Function.update_of_ne heq] at hne
      exact List.mem_cons_of_mem _ (h.mem_drawn key' hne)
  . apply (h.valid.next hsub.next).valid.congr
    exact fun _ => List.mem_cons.symm

theorem Indexed.shrink (h : s.Indexed drawn) (hlive : ∀ id, (s'.live id).Sublist (s.live id))
    (hindex : ∀ id, ∀ key ∈ s'.live id, s'.index key = s.index key)
    (hnone : ∀ key, s'.index key ≠ none → s.index key ≠ none) (hkeySeq : s'.keySeq = s.keySeq) :
    s'.Indexed drawn := by
  constructor
  . intro id key hmem
    rw [hindex id key hmem]
    exact h.index_eq id key ((hlive id).subset hmem)
  . exact fun id => (h.unique id).sublist (hlive id)
  . exact fun key hne => h.mem_drawn key (hnone key hne)
  . rw [hkeySeq]
    exact h.valid

theorem index_unsubscribe (s : SubsClose β) (key : Nat) : (s.unsubscribe key).index = s.index := by
  unfold unsubscribe
  split
  . rfl
  . split <;> rfl

theorem sublist_unsubscribe (s : SubsClose β) (key : Nat) (id : UInt32) :
    ((s.unsubscribe key).live id).Sublist (s.live id) := by
  rw [live_unsubscribe]
  split
  . exact List.filter_sublist
  . exact List.Sublist.refl _

theorem Indexed.unsubscribe (h : s.Indexed drawn) (key : Nat) : (s.unsubscribe key).Indexed drawn := by
  apply h.shrink
  . exact sublist_unsubscribe s key
  . intro id key' _
    rw [index_unsubscribe]
  . intro key' hne
    rw [index_unsubscribe] at hne
    exact hne
  . apply keySeq_unsubscribe

theorem Indexed.mem_unsubscribe_iff (h : s.Indexed drawn) {key' : Nat} :
    key' ∈ (s.unsubscribe key).live id ↔ key' ∈ s.live id ∧ key' ≠ key := by
  rw [live_unsubscribe]
  split
  . rw [List.mem_filter, decide_eq_true_eq]
  . next hne =>
    constructor
    . intro hmem
      refine ⟨hmem, ?_⟩
      rintro rfl
      exact hne (h.index_eq id key' hmem)
    . exact fun hmem => hmem.1

-- What `post` does to the index.
def cleared (vec : List (Nat × β)) (index : Nat → Option UInt32) : Nat → Option UInt32 :=
  vec.foldl (fun index entry => Function.update index entry.1 none) index

theorem cleared_of_mem {vec : List (Nat × β)} (index : Nat → Option UInt32)
    (h : key ∈ vec.map Prod.fst ∨ index key = none) : cleared vec index key = none := by
  induction vec generalizing index with
  | nil => exact h.resolve_left List.not_mem_nil
  | cons entry vec ih =>
    apply ih
    rw [List.map_cons, List.mem_cons] at h
    by_cases heq : key = entry.1
    . right
      rw [heq]
      apply Function.update_self
    . dsimp only
      rw [Function.update_of_ne heq]
      exact h.imp_left fun h => h.resolve_left heq

theorem cleared_of_not_mem {vec : List (Nat × β)} (index : Nat → Option UInt32)
    (h : key ∉ vec.map Prod.fst) : cleared vec index key = index key := by
  induction vec generalizing index with
  | nil => rfl
  | cons entry vec ih =>
    rw [List.map_cons] at h
    have hne := List.ne_of_not_mem_cons h
    have hrest := ih (Function.update index entry.1 none) (List.not_mem_of_not_mem_cons h)
    rw [Function.update_of_ne hne] at hrest
    exact hrest

theorem index_post_of_mem (h : key ∈ s.live id) : (s.post id).2.index key = none := by
  unfold live at h
  unfold post
  cases hsubs : s.subs id with
  | none =>
    rw [hsubs] at h
    exact absurd h List.not_mem_nil
  | some vec =>
    rw [hsubs] at h
    apply cleared_of_mem
    exact Or.inl h

theorem index_post_of_not_mem (h : key ∉ s.live id) : (s.post id).2.index key = s.index key := by
  unfold live at h
  unfold post
  cases hsubs : s.subs id with
  | none => rfl
  | some vec =>
    rw [hsubs] at h
    apply cleared_of_not_mem _ h

theorem Indexed.post (h : s.Indexed drawn) (id : UInt32) : (s.post id).2.Indexed drawn := by
  apply h.shrink
  . intro id'
    rw [live_post]
    split
    . exact List.nil_sublist _
    . exact List.Sublist.refl _
  . intro id' key hkey
    rw [live_post] at hkey
    split at hkey
    . exact absurd hkey List.not_mem_nil
    . next hne =>
      apply index_post_of_not_mem
      intro hmem
      have hid := h.index_eq id key hmem
      rw [h.index_eq id' key hkey] at hid
      injection hid with hid
      exact hne hid
  . intro key hne
    by_cases hmem : key ∈ s.live id
    . exact absurd (index_post_of_mem hmem) hne
    . rw [← index_post_of_not_mem hmem]
      exact hne
  . apply keySeq_post

end SubsClose
end Lax
