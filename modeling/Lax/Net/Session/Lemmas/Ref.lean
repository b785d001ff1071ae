import Lax.Net.Session.Impl.Ref
import Lax.Net.Session.Lemmas.SubsClose

/-!
This module contains who owns a subscription to the end of a session: every ref that has its key takes
it away when it is destroyed, and none does when it is overwritten.
-/

namespace Lax
namespace Refs

variable {β : Type} {s s' : Refs β} {x y key : Nat} {id : UInt32} {r r' : Ref} {drawn : List Nat}

def Holds (s : Refs β) (x key : Nat) : Prop :=
  ∃ r, s.refs x = some r ∧ r.key = key

def Registered (s : Refs β) (key : Nat) : Prop :=
  ∃ id, key ∈ s.subsClose.live id

-- A subscription is registered as long as its session is not closed and somebody holds it, and no longer.
structure Owned (s : Refs β) : Prop where
  held : ∀ key, s.Registered key → ∃ x, s.Holds x key
  registered : ∀ x key id, s.Holds x key → s.made key = some id → key ∈ s.subsClose.live id

-- The only one that holds a subscription is not overwritten.
def LetsGo (s : Refs β) (x : Nat) : Prop :=
  ∀ key, s.Holds x key → s.Registered key → ∃ y, y ≠ x ∧ s.Holds y key

-- And who is destroyed is the only one that holds it.
def Careful (s : Refs β) : Event β → Prop
  | .destroy x => ∀ key y, s.Holds x key → s.Registered key → s.Holds y key → y = x
  | .assign x y => x = y ∨ s.LetsGo x
  | .subClose x _ =>
    (∀ r, s.refs x = some r → r.session = none) ∨ s.subsClose.keySeq.next = none ∨ s.LetsGo x
  | _ => True

/-!
### The keys of refs
-/

-- `drawn` are the keys that have been handed out.
structure Good (s : Refs β) (drawn : List Nat) : Prop where
  indexed : s.subsClose.Indexed drawn
  beginSeq : s.subsClose.keySeq.beginSeq = 1
  pos : 0 ∉ drawn
  holds : ∀ x key, s.Holds x key → key = 0 ∨ key ∈ drawn
  mem_drawn : ∀ key, s.made key ≠ none → key ∈ drawn
  made : ∀ id, ∀ key ∈ s.subsClose.live id, s.made key = some id

theorem Good.registered_mem (h : s.Good drawn) (hkey : s.Registered key) : key ∈ drawn := by
  obtain ⟨id, hlive⟩ := hkey
  apply h.mem_drawn
  rw [h.made id key hlive]
  exact Option.some_ne_none id

theorem not_holds_of_none (hx : s.refs x = none) : ¬s.Holds x key := by
  rintro ⟨r, hr, -⟩
  rw [hx] at hr
  contradiction

theorem holds_iff (hx : s.refs x = some r) : s.Holds x key ↔ r.key = key := by
  constructor
  . rintro ⟨r', hr', hkey⟩
    rw [hx] at hr'
    injection hr' with heq
    exact heq ▸ hkey
  . exact fun hkey => ⟨r, hx, hkey⟩

theorem holds_of_refs_eq (hrefs : s'.refs y = s.refs y) : s'.Holds y key ↔ s.Holds y key := by
  unfold Holds
  rw [hrefs]

theorem holds_set_self : (s.set x r).Holds x key ↔ r.key = key := by
  apply holds_iff
  apply Function.update_self

theorem holds_set_of_ne (hne : y ≠ x) : (s.set x r).Holds y key ↔ s.Holds y key := by
  apply holds_of_refs_eq
  apply Function.update_of_ne hne

/-!
### Refs that get another key
-/

-- The new key of `x` is nobody's or one that it has been given by `y`.
theorem Good.set (h : s.Good drawn) (hr : r.key = 0 ∨ ∃ y, s.Holds y r.key) : (s.set x r).Good drawn := by
  constructor
  . exact h.indexed
  . exact h.beginSeq
  . exact h.pos
  . intro y key hy
    by_cases heq : y = x
    . subst heq
      rw [holds_set_self] at hy
      rw [← hy]
      obtain hzero | ⟨y, hy⟩ := hr
      . exact Or.inl hzero
      . exact h.holds y r.key hy
    . rw [holds_set_of_ne heq] at hy
      exact h.holds y key hy
  . exact h.mem_drawn
  . exact h.made

theorem registered_set (h : s.Good drawn) (howned : s.Owned)
    (hr : r.key = 0 ∨ ∃ y, s.Holds y r.key) :
    ∀ y key id, (s.set x r).Holds y key → s.made key = some id → key ∈ s.subsClose.live id := by
  intro y key id hy hmade
  by_cases heq : y = x
  . subst heq
    rw [holds_set_self] at hy
    subst hy
    obtain hzero | ⟨y, hy⟩ := hr
    . exfalso
      apply h.pos
      apply h.mem_drawn
      rw [← hzero, hmade]
      exact Option.some_ne_none id
    . exact howned.registered y r.key id hy hmade
  . rw [holds_set_of_ne heq] at hy
    exact howned.registered y key id hy hmade

theorem owned_set_iff (h : s.Good drawn) (howned : s.Owned) (hr : r.key = 0 ∨ ∃ y, s.Holds y r.key) :
    (s.set x r).Owned
      ↔ ∀ key, s.Holds x key → s.Registered key → ∃ y, (s.set x r).Holds y key := by
  constructor
  . exact fun howned' key _ hkey => howned'.held key hkey
  . intro hothers
    refine ⟨?_, registered_set h howned hr⟩
    intro key hkey
    obtain ⟨y, hy⟩ := howned.held key hkey
    by_cases heq : y = x
    . subst heq
      exact hothers key hy hkey
    . exact ⟨y, (holds_set_of_ne heq).mpr hy⟩

theorem owned_create (h : s.Good drawn) (howned : s.Owned) (hx : s.refs x = none)
    (session : Option UInt32) : (s.set x ⟨session, 0⟩).Owned := by
  rw [owned_set_iff h howned (Or.inl rfl)]
  exact fun key hkey => absurd hkey (not_holds_of_none hx)

theorem owned_copy (h : s.Good drawn) (howned : s.Owned) (hx : s.refs x = none)
    (hy : s.refs y = some r) : (s.set x r).Owned := by
  rw [owned_set_iff h howned (Or.inr ⟨y, r, hy, rfl⟩)]
  exact fun key hkey => absurd hkey (not_holds_of_none hx)

theorem owned_assign_iff (h : s.Good drawn) (howned : s.Owned) (hy : s.refs y = some r) :
    (s.set x r).Owned ↔ x = y ∨ s.LetsGo x := by
  rw [owned_set_iff h howned (Or.inr ⟨y, r, hy, rfl⟩)]
  constructor
  . intro hothers
    by_cases heq : x = y
    . exact Or.inl heq
    . right
      intro key hx hkey
      obtain ⟨z, hz⟩ := hothers key hx hkey
      by_cases hzx : z = x
      . subst hzx
        rw [holds_set_self] at hz
        exact ⟨y, Ne.symm heq, r, hy, hz⟩
      . exact ⟨z, hzx, (holds_set_of_ne hzx).mp hz⟩
  . rintro (heq | hlets) key hx hkey
    . subst heq
      exact ⟨x, holds_set_self.mpr ((holds_iff hy).mp hx)⟩
    . obtain ⟨z, hne, hz⟩ := hlets key hx hkey
      exact ⟨z, (holds_set_of_ne hne).mpr hz⟩

/-!
### Destructors
-/

theorem mem_live_destroy (h : s.Good drawn) (x : Nat) (r : Ref) :
    key ∈ (s.destroy x r).subsClose.live id ↔ key ∈ s.subsClose.live id ∧ key ≠ r.key := by
  unfold destroy
  dsimp only
  split
  . exact h.indexed.mem_unsubscribe_iff
  . next hzero =>
    constructor
    . intro hlive
      refine ⟨hlive, ?_⟩
      rintro rfl
      apply h.pos
      rw [← Nat.eq_zero_of_not_pos hzero]
      exact h.registered_mem ⟨id, hlive⟩
    . exact fun hlive => hlive.1

theorem holds_destroy : (s.destroy x r).Holds y key ↔ y ≠ x ∧ s.Holds y key := by
  by_cases heq : y = x
  . subst heq
    apply iff_of_false
    . apply not_holds_of_none
      apply Function.update_self
    . exact fun hy => hy.1 rfl
  . rw [and_iff_right heq]
    apply holds_of_refs_eq
    apply Function.update_of_ne heq

theorem Good.destroy (h : s.Good drawn) (x : Nat) (r : Ref) : (s.destroy x r).Good drawn := by
  constructor
  . unfold Refs.destroy
    dsimp only
    split
    . apply h.indexed.unsubscribe
    . exact h.indexed
  . unfold Refs.destroy
    dsimp only
    split
    . rw [SubsClose.keySeq_unsubscribe]
      exact h.beginSeq
    . exact h.beginSeq
  . exact h.pos
  . intro y key hy
    exact h.holds y key (holds_destroy.mp hy).2
  . exact h.mem_drawn
  . intro id key hlive
    exact h.made id key ((mem_live_destroy h x r).mp hlive).1

theorem owned_destroy_iff (h : s.Good drawn) (howned : s.Owned) (hx : s.refs x = some r) :
    (s.destroy x r).Owned ↔ s.Careful (.destroy x) := by
  constructor
  . rintro howned' key y hkey ⟨id, hlive⟩ hy
    rw [holds_iff hx] at hkey
    apply Decidable.of_not_not
    intro hne
    have hlive' := howned'.registered y key id (holds_destroy.mpr ⟨hne, hy⟩) (h.made id key hlive)
    rw [mem_live_destroy h] at hlive'
    exact hlive'.2 hkey.symm
  . intro hcareful
    constructor
    . rintro key ⟨id, hlive⟩
      obtain ⟨hlive, hne⟩ := (mem_live_destroy h x r).mp hlive
      obtain ⟨y, hy⟩ := howned.held key ⟨id, hlive⟩
      refine ⟨y, holds_destroy.mpr ⟨?_, hy⟩⟩
      rintro rfl
      exact hne ((holds_iff hx).mp hy).symm
    . intro y key id hy hmade
      obtain ⟨hyx, hy⟩ := holds_destroy.mp hy
      have hlive := howned.registered y key id hy hmade
      refine (mem_live_destroy h x r).mpr ⟨hlive, ?_⟩
      rintro rfl
      exact hyx (hcareful r.key y ((holds_iff hx).mpr rfl) ⟨id, hlive⟩ hy)

/-!
### Subscribing again
-/

section
variable {subsClose : SubsClose β}

-- What `sub_close` makes of a state.
def subscribed (s : Refs β) (x : Nat) (r : Ref) (id : UInt32) (key : Nat) (subsClose : SubsClose β) :
    Refs β :=
  {
    refs := Function.update s.refs x (some { r with key := key })
    subsClose := subsClose
    made := Function.update s.made key (some id)
  }

theorem holds_subscribed_self {key' : Nat} :
    (s.subscribed x r id key subsClose).Holds x key' ↔ key = key' := by
  have hx : (s.subscribed x r id key subsClose).refs x = some { r with key := key } :=
    Function.update_self _ _ _
  exact holds_iff hx

theorem holds_subscribed_of_ne {y key' : Nat} (hne : y ≠ x) :
    (s.subscribed x r id key subsClose).Holds y key' ↔ s.Holds y key' := by
  apply holds_of_refs_eq
  apply Function.update_of_ne hne

theorem Good.subscribed (h : s.Good drawn) (hsub : SubsClose.Subscribed s.subsClose id key subsClose)
    (x : Nat) (r : Ref) : (s.subscribed x r id key subsClose).Good (key :: drawn) := by
  have hnext := h.indexed.valid.next hsub.next
  obtain ⟨hfresh, -⟩ := h.indexed.fresh hsub
  unfold Refs.subscribed
  constructor
  . exact h.indexed.subscribed hsub
  . dsimp only
    rw [hnext.beginSeq_eq, h.beginSeq]
  . have hle := hnext.begin_le
    rw [h.beginSeq] at hle
    rw [List.mem_cons]
    rintro (heq | hmem)
    . omega
    . exact h.pos hmem
  . intro y key' hy
    rw [List.mem_cons]
    by_cases heq : y = x
    . subst heq
      exact Or.inr (Or.inl (holds_subscribed_self.mp hy).symm)
    . have hy := (holds_subscribed_of_ne heq).mp hy
      exact (h.holds y key' hy).imp_right Or.inr
  . intro key' hne
    rw [List.mem_cons]
    by_cases heq : key' = key
    . exact Or.inl heq
    . dsimp only at hne
      rw [Function.update_of_ne heq] at hne
      exact Or.inr (h.mem_drawn key' hne)
  . intro id' key' hlive
    dsimp only at hlive ⊢
    by_cases heq : key' = key
    . subst heq
      rw [Function.update_self, hsub.live_eq] at *
      split at hlive
      . next hid => rw [hid]
      . exact absurd (h.registered_mem ⟨id', hlive⟩) hfresh
    . rw [Function.update_of_ne heq]
      rw [hsub.live_eq] at hlive
      split at hlive
      . next hid =>
        rw [List.mem_append, List.mem_singleton, or_iff_left heq] at hlive
        rw [hid]
        exact h.made id key' hlive
      . exact h.made id' key' hlive

theorem registered_subscribed (hsub : SubsClose.Subscribed s.subsClose id key subsClose) {key' : Nat}
    (hne : key' ≠ key) :
    (∃ id', key' ∈ subsClose.live id') ↔ s.Registered key' := by
  apply exists_congr
  intro id'
  rw [hsub.live_eq]
  split
  . next hid => rw [List.mem_append, List.mem_singleton, or_iff_left hne, hid]
  . rfl

-- The subscription that the ref had before is still there, so that somebody else holds it.
theorem letsGo_of_owned (h : s.Good drawn)
    (hsub : SubsClose.Subscribed s.subsClose id key subsClose)
    (howned : (s.subscribed x r id key subsClose).Owned) : s.LetsGo x := by
  obtain ⟨hfresh, -⟩ := h.indexed.fresh hsub
  intro key' _ hkey'
  have hne : key' ≠ key := by
    rintro rfl
    exact hfresh (h.registered_mem hkey')
  obtain ⟨y, hy⟩ := howned.held key' ((registered_subscribed hsub hne).mpr hkey')
  have hyx : y ≠ x := by
    rintro rfl
    exact hne (holds_subscribed_self.mp hy).symm
  exact ⟨y, hyx, (holds_subscribed_of_ne hyx).mp hy⟩

theorem held_subscribed (howned : s.Owned) (hlets : s.LetsGo x)
    (hsub : SubsClose.Subscribed s.subsClose id key subsClose) {key' : Nat}
    (hkey' : (s.subscribed x r id key subsClose).Registered key') :
    ∃ y, (s.subscribed x r id key subsClose).Holds y key' := by
  by_cases heq : key' = key
  . exact ⟨x, holds_subscribed_self.mpr heq.symm⟩
  . have hkey := (registered_subscribed hsub heq).mp hkey'
    obtain ⟨y, hy⟩ := howned.held key' hkey
    by_cases hyx : y = x
    . subst hyx
      obtain ⟨z, hne, hz⟩ := hlets key' hy hkey
      exact ⟨z, (holds_subscribed_of_ne hne).mpr hz⟩
    . exact ⟨y, (holds_subscribed_of_ne hyx).mpr hy⟩

theorem live_subscribed (howned : s.Owned)
    (hsub : SubsClose.Subscribed s.subsClose id key subsClose) {y key' : Nat} {id' : UInt32}
    (hy : (s.subscribed x r id key subsClose).Holds y key')
    (hmade : (s.subscribed x r id key subsClose).made key' = some id') :
    key' ∈ subsClose.live id' := by
  unfold Refs.subscribed at hmade
  dsimp only at hmade
  rw [hsub.live_eq]
  by_cases heq : key' = key
  . subst heq
    rw [Function.update_self] at hmade
    injection hmade with hid
    rw [if_pos hid.symm]
    exact List.mem_append_right _ List.mem_cons_self
  . rw [Function.update_of_ne heq] at hmade
    have hyx : y ≠ x := by
      rintro rfl
      exact heq (holds_subscribed_self.mp hy).symm
    have hlive := howned.registered y key' id' ((holds_subscribed_of_ne hyx).mp hy) hmade
    split
    . next hid =>
      rw [← hid]
      exact List.mem_append_left _ hlive
    . exact hlive

theorem owned_subscribed_iff (h : s.Good drawn) (howned : s.Owned)
    (hsub : SubsClose.Subscribed s.subsClose id key subsClose) :
    (s.subscribed x r id key subsClose).Owned ↔ s.LetsGo x := by
  constructor
  . exact letsGo_of_owned h hsub
  . intro hlets
    constructor
    . exact fun key' => held_subscribed howned hlets hsub
    . exact fun y key' id' => live_subscribed howned hsub

end

/-!
### Closing a session
-/

theorem mem_live_close {id' : UInt32} :
    key ∈ (s.close id).subsClose.live id' ↔ id' ≠ id ∧ key ∈ s.subsClose.live id' := by
  unfold close
  dsimp only
  rw [SubsClose.live_post]
  split
  . next heq => exact iff_of_false List.not_mem_nil fun h => h.1 heq
  . next hne => exact (and_iff_right hne).symm

theorem made_close {id' : UInt32} :
    (s.close id).made key = some id' ↔ id' ≠ id ∧ s.made key = some id' := by
  unfold close
  dsimp only
  split
  . next hmade =>
    rw [hmade]
    apply iff_of_false
    . exact fun h => nomatch h
    . rintro ⟨hne, heq⟩
      injection heq with heq
      exact hne heq.symm
  . next hmade =>
    constructor
    . intro heq
      refine ⟨?_, heq⟩
      rintro rfl
      exact hmade heq
    . exact fun h => h.2

theorem Good.close (h : s.Good drawn) (id : UInt32) : (s.close id).Good drawn := by
  constructor
  . apply h.indexed.post
  . unfold Refs.close
    dsimp only
    rw [SubsClose.keySeq_post]
    exact h.beginSeq
  . exact h.pos
  . exact h.holds
  . intro key hne
    obtain ⟨id', hid'⟩ := Option.ne_none_iff_exists'.mp hne
    apply h.mem_drawn
    rw [(made_close.mp hid').2]
    exact Option.some_ne_none id'
  . intro id' key hlive
    obtain ⟨hne, hlive⟩ := mem_live_close.mp hlive
    exact made_close.mpr ⟨hne, h.made id' key hlive⟩

theorem owned_close (howned : s.Owned) (id : UInt32) : (s.close id).Owned := by
  constructor
  . rintro key ⟨id', hlive⟩
    exact howned.held key ⟨id', (mem_live_close.mp hlive).2⟩
  . intro x key id' hx hmade
    obtain ⟨hne, hmade⟩ := made_close.mp hmade
    exact mem_live_close.mpr ⟨hne, howned.registered x key id' hx hmade⟩

/-!
### Runs
-/

theorem subClose_cases (s : Refs β) (x : Nat) (r : Ref) (cb : β) :
    (r.session = none ∨ s.subsClose.keySeq.next = none)
        ∧ ((s.subClose x r cb).map (·.2)).getD s = s
      ∨ ∃ id key subsClose, r.session = some id ∧ s.subsClose.keySeq.next ≠ none
        ∧ SubsClose.Subscribed s.subsClose id key subsClose
        ∧ ((s.subClose x r cb).map (·.2)).getD s = s.subscribed x r id key subsClose := by
  obtain ⟨session, key⟩ := r
  unfold subClose
  cases session with
  | none => exact Or.inl ⟨Or.inl rfl, rfl⟩
  | some id =>
    dsimp only
    cases hsub : s.subsClose.subscribe id cb with
    | none => exact Or.inl ⟨Or.inr (SubsClose.subscribe_eq_none hsub), rfl⟩
    | some result =>
      obtain ⟨key, subsClose⟩ := result
      have hsubscribed := SubsClose.subscribed hsub
      right
      refine ⟨id, key, subsClose, rfl, ?_, hsubscribed, rfl⟩
      rw [hsubscribed.next]
      exact Option.some_ne_none _

theorem good_step (h : ∃ drawn, s.Good drawn) {e : Event β} (hstep : s.step e = some s') :
    ∃ drawn, s'.Good drawn := by
  obtain ⟨drawn, h⟩ := h
  cases e with
  | create x session =>
    obtain ⟨-, hstep⟩ := Option.ite_none_right_eq_some.mp hstep
    injection hstep with hstep
    exact ⟨drawn, hstep ▸ h.set (Or.inl rfl)⟩
  | copy x y =>
    obtain ⟨-, hstep⟩ := Option.ite_none_right_eq_some.mp hstep
    obtain ⟨r, hy, rfl⟩ := Option.map_eq_some_iff.mp hstep
    exact ⟨drawn, h.set (Or.inr ⟨y, r, hy, rfl⟩)⟩
  | assign x y =>
    obtain ⟨-, hstep⟩ := Option.ite_none_right_eq_some.mp hstep
    obtain ⟨r, hy, rfl⟩ := Option.map_eq_some_iff.mp hstep
    exact ⟨drawn, h.set (Or.inr ⟨y, r, hy, rfl⟩)⟩
  | destroy x =>
    obtain ⟨r, -, rfl⟩ := Option.map_eq_some_iff.mp hstep
    exact ⟨drawn, h.destroy x r⟩
  | subClose x cb =>
    obtain ⟨r, -, rfl⟩ := Option.map_eq_some_iff.mp hstep
    obtain ⟨-, heq⟩ | ⟨id, key, subsClose, -, -, hsub, heq⟩ := subClose_cases s x r cb
    . rw [heq]
      exact ⟨drawn, h⟩
    . rw [heq]
      exact ⟨key :: drawn, h.subscribed hsub x r⟩
  | close id =>
    injection hstep with hstep
    exact ⟨drawn, hstep ▸ h.close id⟩

theorem owned_step_iff (h : s.Good drawn) (howned : s.Owned) {e : Event β}
    (hstep : s.step e = some s') : s'.Owned ↔ s.Careful e := by
  cases e with
  | create x session =>
    obtain ⟨hx, hstep⟩ := Option.ite_none_right_eq_some.mp hstep
    injection hstep with hstep
    subst hstep
    exact iff_of_true (owned_create h howned (Option.isNone_iff_eq_none.mp hx) session) trivial
  | copy x y =>
    obtain ⟨hx, hstep⟩ := Option.ite_none_right_eq_some.mp hstep
    obtain ⟨r, hy, rfl⟩ := Option.map_eq_some_iff.mp hstep
    exact iff_of_true (owned_copy h howned (Option.isNone_iff_eq_none.mp hx) hy) trivial
  | assign x y =>
    obtain ⟨-, hstep⟩ := Option.ite_none_right_eq_some.mp hstep
    obtain ⟨r, hy, rfl⟩ := Option.map_eq_some_iff.mp hstep
    exact owned_assign_iff h howned hy
  | destroy x =>
    obtain ⟨r, hx, rfl⟩ := Option.map_eq_some_iff.mp hstep
    exact owned_destroy_iff h howned hx
  | subClose x cb =>
    obtain ⟨r, hx, rfl⟩ := Option.map_eq_some_iff.mp hstep
    obtain ⟨hnone, heq⟩ | ⟨id, key, subsClose, hsession, hnext, hsub, heq⟩ := subClose_cases s x r cb
    . rw [heq]
      apply iff_of_true howned
      obtain hnone | hnone := hnone
      . left
        intro r' hx'
        rw [hx] at hx'
        injection hx' with heq
        exact heq ▸ hnone
      . exact Or.inr (Or.inl hnone)
    . rw [heq, owned_subscribed_iff h howned hsub]
      unfold Careful
      dsimp only
      rw [or_iff_right, or_iff_right hnext]
      intro hall
      have hnone := hall r hx
      rw [hsession] at hnone
      contradiction
  | close id =>
    injection hstep with hstep
    subst hstep
    exact iff_of_true (owned_close howned id) trivial

theorem good_ctor : (ctor : Refs β).Good [] := by
  constructor
  . apply SubsClose.indexed_ctor
  . apply Sequence.beginSeq_acquire
  . exact List.not_mem_nil
  . rintro x key ⟨r, hr, -⟩
    exact nomatch hr
  . exact fun key hne => absurd rfl hne
  . exact fun id key hlive => absurd hlive List.not_mem_nil

theorem owned_ctor : (ctor : Refs β).Owned := by
  constructor
  . rintro key ⟨id, hlive⟩
    exact absurd hlive List.not_mem_nil
  . rintro x key id ⟨r, hr, -⟩
    exact nomatch hr

/--
In every program, refs own their subscriptions exactly as long as it destroys no ref whose registered
subscription another one holds, and overwrites none that is the only one to hold its own.
-/
theorem owned_iff (es : List (Event β)) :
    (machine β).Along (fun s e => ∀ s', s.step e = some s' → s'.Owned) ctor es
      ↔ (machine β).Along (fun s e => (s.step e).isSome → s.Careful e) ctor es := by
  apply Machine.along_step_congr fun s => s.Owned ∧ ∃ drawn, s.Good drawn
  . rintro s e s' ⟨howned, drawn, h⟩ hcareful hstep
    exact ⟨(owned_step_iff h howned hstep).mpr hcareful, good_step ⟨drawn, h⟩ hstep⟩
  . rintro s e s' ⟨howned, drawn, h⟩ hstep
    exact owned_step_iff h howned hstep
  . exact ⟨owned_ctor, [], good_ctor⟩

set_option maxRecDepth 8000 in
-- A copy is destroyed, and the subscription of the original is gone.
theorem exists_not_owned :
    ∃ s, (machine Unit).run ctor [.create 0 (some 7), .subClose 0 (), .copy 1 0, .destroy 1] = some s
      ∧ ¬s.Owned := by
  refine ⟨_, rfl, ?_⟩
  intro howned
  have hlive := howned.registered 0 1 7 ⟨⟨some 7, 1⟩, rfl, rfl⟩ rfl
  exact nomatch hlive

end Refs
end Lax
