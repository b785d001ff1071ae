import Mathlib.Data.List.Count
import Mathlib.Data.List.Nodup
import Lax.Util.Impl.ObjectPool

/-!
This module contains when every object of a pool is destroyed once: a ref that owns an object and is
overwritten by another one loses it.
-/

namespace Lax
namespace ObjectPool

variable {s : ObjectPool}

structure Alloc (s : ObjectPool) (obj : Nat) (s' : ObjectPool) : Prop where
  free : obj ∈ s.q ∨ obj = s.allocated
  nodup : s'.q.Nodup
  mem_q : ∀ p, p ∈ s'.q ↔ p ∈ s.q ∧ p ≠ obj
  lt_allocated : ∀ p, p < s'.allocated ↔ p < s.allocated ∨ p = obj

theorem alloc_spec (hnodup : s.q.Nodup) (hlt : ∀ p ∈ s.q, p < s.allocated) :
    Alloc s s.alloc.1 s.alloc.2 := by
  unfold alloc
  split
  . next obj q hq =>
    rw [hq, List.nodup_cons] at hnodup
    rw [hq, List.forall_mem_cons] at hlt
    constructor
    . simp [hq]
    . exact hnodup.2
    . intro p
      rw [hq, List.mem_cons]
      have hne : p ∈ q → p ≠ obj := fun hp heq => hnodup.1 (heq ▸ hp)
      tauto
    . intro p
      dsimp only
      omega
  . next hq =>
    constructor
    . exact Or.inr rfl
    . exact hnodup
    . simp [hq]
    . intro p
      dsimp only
      omega

end ObjectPool

namespace ObjectRefs

variable {s s' : ObjectRefs} {x y p : Nat}

-- The address of the object that a ref owns.
def held (s : ObjectRefs) (x : Nat) : Option Nat :=
  (s.refs x).bind ObjectPool.Ref.target

def Held (s : ObjectRefs) (p : Nat) : Prop :=
  ∃ x, s.held x = some p

def Owns (s : ObjectRefs) (x o : Nat) : Prop :=
  ∃ p, s.held x = some p ∧ s.memory p = o

structure Exact (s : ObjectRefs) : Prop where
  owned : ∀ o < s.constructed, o ∉ s.destroyed → ∃! x, s.Owns x o
  once : s.destroyed.Nodup
  gone : (∀ x, s.refs x = none) →
    ∀ o < s.constructed, s.destroyed.count o = 1 ∧ s.pool.q.count (s.address o) = 1

-- What is overwritten owns nothing, unless it is assigned to itself.
def Lossless (s : ObjectRefs) : Event → Prop
  | .assign x y => x = y ∨ s.held x = none
  | _ => True

/-!
### The places of an object
-/

structure Good (s : ObjectRefs) : Prop where
  unique : ∀ x y p, s.held x = some p → s.held y = some p → x = y
  nodup : s.pool.q.Nodup
  not_mem : ∀ p, s.Held p → p ∉ s.pool.q
  allocated : ∀ p, p < s.pool.allocated ↔ p ∈ s.pool.q ∨ s.Held p
  object : ∀ p, s.Held p →
    s.memory p < s.constructed ∧ s.memory p ∉ s.destroyed ∧ s.address (s.memory p) = p
  live : ∀ o < s.constructed, o ∉ s.destroyed →
    s.Held (s.address o) ∧ s.memory (s.address o) = o
  once : s.destroyed.Nodup
  made : ∀ o ∈ s.destroyed, o < s.constructed
  address : ∀ o < s.constructed, s.address o < s.pool.allocated

theorem good_ctor : ctor.Good := by
  have hheld : ∀ p, ¬ctor.Held p := by
    rintro p ⟨x, hx⟩
    cases hx
  constructor
  . intro x y p hx
    exact absurd ⟨x, hx⟩ (hheld p)
  . exact List.nodup_nil
  . exact fun p hp => absurd hp (hheld p)
  . intro p
    rw [or_iff_left (hheld p)]
    simp [ctor]
  . exact fun p hp => absurd hp (hheld p)
  . simp [ctor]
  . exact List.nodup_nil
  . simp [ctor]
  . simp [ctor]

theorem Good.owns_iff (h : s.Good) {o : Nat} (ho : o < s.constructed) (hlive : o ∉ s.destroyed) :
    s.Owns x o ↔ s.held x = some (s.address o) := by
  constructor
  . rintro ⟨p, hx, rfl⟩
    rw [(h.object p ⟨x, hx⟩).2.2]
    exact hx
  . intro hx
    exact ⟨_, hx, (h.live o ho hlive).2⟩

theorem Good.exact (h : s.Good) : s.Exact := by
  constructor
  . intro o ho hlive
    obtain ⟨x, hx⟩ := (h.live o ho hlive).1
    refine ⟨x, (h.owns_iff ho hlive).mpr hx, ?_⟩
    intro y hy
    exact h.unique y x _ ((h.owns_iff ho hlive).mp hy) hx
  . exact h.once
  . intro hnone o ho
    have hheld : ∀ p, ¬s.Held p := by
      rintro p ⟨x, hx⟩
      unfold held at hx
      rw [hnone x] at hx
      cases hx
    have hdestroyed : o ∈ s.destroyed := by
      by_contra hlive
      exact hheld _ (h.live o ho hlive).1
    have hq := (h.allocated _).mp (h.address o ho)
    rw [or_iff_left (hheld _)] at hq
    exact ⟨List.count_eq_one_of_mem h.once hdestroyed, List.count_eq_one_of_mem h.nodup hq⟩

/-!
### Refs
-/

-- Refs may change hands as long as the same objects are in one hand each.
theorem Good.refs (h : s.Good) {refs : Nat → Option ObjectPool.Ref}
    (hheld : ∀ p, { s with refs := refs }.Held p ↔ s.Held p)
    (hunique : ∀ x y p, { s with refs := refs }.held x = some p
      → { s with refs := refs }.held y = some p → x = y) :
    { s with refs := refs }.Good := by
  constructor
  . exact hunique
  . exact h.nodup
  . exact fun p hp => h.not_mem p ((hheld p).mp hp)
  . intro p
    rw [hheld]
    exact h.allocated p
  . exact fun p hp => h.object p ((hheld p).mp hp)
  . intro o ho hlive
    rw [hheld]
    exact h.live o ho hlive
  . exact h.once
  . exact h.made
  . exact h.address

theorem target_update (refs : Nat → Option ObjectPool.Ref) (r : Option ObjectPool.Ref) (z : Nat) :
    (Function.update refs x r z).bind ObjectPool.Ref.target
      =
    if z = x then r.bind ObjectPool.Ref.target else (refs z).bind ObjectPool.Ref.target := by
  by_cases heq : z = x
  . rw [heq, Function.update_self, if_pos rfl]
  . rw [Function.update_of_ne heq, if_neg heq]

theorem held_eq_none (hx : s.refs x = none) : s.held x = none := by
  unfold held
  rw [hx]
  rfl

theorem held_move {z : Nat} (hne : x ≠ y) :
    (s.move x y).held z = if z = y then none else if z = x then s.held y else s.held z := by
  unfold move held
  rw [if_neg hne]
  dsimp only
  rw [target_update, target_update]
  rfl

-- Who owns an object after a `move` has it from another one, and that one has not.
theorem held_move_cases {z : Nat} (hne : x ≠ y) (hz : (s.move x y).held z = some p) :
    z = x ∧ s.held y = some p ∨ z ≠ x ∧ z ≠ y ∧ s.held z = some p := by
  rw [held_move hne] at hz
  split at hz
  . contradiction
  . next hy =>
    split at hz
    . next hx => exact Or.inl ⟨hx, hz⟩
    . next hx => exact Or.inr ⟨hx, hy, hz⟩

theorem Good.move (h : s.Good) (hx : x = y ∨ s.held x = none) : (s.move x y).Good := by
  by_cases hne : x = y
  . unfold ObjectRefs.move
    rw [if_pos hne]
    exact h
  . rw [or_iff_right hne] at hx
    have hmove := @held_move s x y
    have hcases := fun p z => @held_move_cases s x y p z hne
    unfold ObjectRefs.move at *
    rw [if_neg hne] at *
    apply h.refs
    . intro p
      constructor
      . rintro ⟨z, hz⟩
        obtain ⟨-, hy⟩ | ⟨-, -, hz⟩ := hcases p z hz
        . exact ⟨y, hy⟩
        . exact ⟨z, hz⟩
      . rintro ⟨z, hz⟩
        by_cases heq : z = y
        . subst heq
          refine ⟨x, ?_⟩
          rw [hmove hne, if_neg hne, if_pos rfl]
          exact hz
        . refine ⟨z, ?_⟩
          rw [hmove hne, if_neg heq, if_neg]
          . exact hz
          . rintro rfl
            rw [hx] at hz
            contradiction
    . intro z w p hz hw
      obtain ⟨rfl, hy⟩ | ⟨-, hzy, hz⟩ := hcases p z hz
      . obtain ⟨rfl, -⟩ | ⟨-, hwy, hw⟩ := hcases p w hw
        . rfl
        . exact absurd (h.unique w y p hw hy) hwy
      . obtain ⟨-, hy⟩ | ⟨-, -, hw⟩ := hcases p w hw
        . exact absurd (h.unique z y p hz hy) hzy
        . exact h.unique z w p hz hw

theorem copy_eq (hne : x ≠ y) : s.copy x y = s.move x y := by
  unfold copy move
  rw [if_neg hne, if_neg hne]
  dsimp only
  rw [Function.update_of_ne hne.symm, Function.update_idem]

theorem memory_move : (s.move x y).memory = s.memory := by
  unfold move
  split <;> rfl

theorem constructed_move : (s.move x y).constructed = s.constructed := by
  unfold move
  split <;> rfl

theorem destroyed_move : (s.move x y).destroyed = s.destroyed := by
  unfold move
  split <;> rfl

-- Nobody owns the object of a ref that has been overwritten.
theorem Good.not_owns_move {z : Nat} (h : s.Good) (hne : x ≠ y) (hx : s.held x = some p) :
    ¬(s.move x y).Owns z (s.memory p) := by
  rintro ⟨p', hz, hmemory⟩
  rw [memory_move] at hmemory
  have hother : ∃ w, w ≠ x ∧ s.held w = some p' := by
    obtain ⟨-, hy⟩ | ⟨hzx, -, hz⟩ := held_move_cases hne hz
    . exact ⟨y, hne.symm, hy⟩
    . exact ⟨z, hzx, hz⟩
  obtain ⟨w, hwx, hw⟩ := hother
  have heq : p' = p := by
    rw [← (h.object p' ⟨w, hw⟩).2.2, hmemory]
    exact (h.object p ⟨x, hx⟩).2.2
  exact hwx (h.unique w x p (heq ▸ hw) hx)

theorem Good.exact_move_iff (h : s.Good) :
    (s.move x y).Exact ↔ x = y ∨ s.held x = none := by
  constructor
  . intro hexact
    by_contra hlost
    rw [not_or] at hlost
    obtain ⟨hne, hx⟩ := hlost
    obtain ⟨p, hx⟩ := Option.ne_none_iff_exists'.mp hx
    have hobject := h.object p ⟨x, hx⟩
    have howned := hexact.owned (s.memory p)
    rw [constructed_move, destroyed_move] at howned
    obtain ⟨z, hz, -⟩ := howned hobject.1 hobject.2.1
    exact h.not_owns_move hne hx hz
  . exact fun hx => (h.move hx).exact

/-!
### Objects
-/

theorem held_construct {z : Nat} :
    (s.construct x).held z = if z = x then some s.pool.alloc.1 else s.held z := by
  apply target_update

theorem Good.alloc (h : s.Good) : ObjectPool.Alloc s.pool s.pool.alloc.1 s.pool.alloc.2 := by
  apply ObjectPool.alloc_spec h.nodup
  exact fun p hp => (h.allocated p).mpr (Or.inl hp)

theorem Good.not_held_alloc (h : s.Good) : ¬s.Held s.pool.alloc.1 := by
  intro hheld
  obtain hmem | heq := h.alloc.free
  . exact h.not_mem _ hheld hmem
  . have hlt := (h.allocated _).mpr (Or.inr hheld)
    omega

theorem held_construct_iff (hx : s.refs x = none) :
    (s.construct x).Held p ↔ s.Held p ∨ p = s.pool.alloc.1 := by
  constructor
  . rintro ⟨z, hz⟩
    rw [held_construct] at hz
    split at hz
    . injection hz with hz
      exact Or.inr hz.symm
    . exact Or.inl ⟨z, hz⟩
  . rintro (⟨z, hz⟩ | rfl)
    . refine ⟨z, ?_⟩
      rw [held_construct, if_neg]
      . exact hz
      . rintro rfl
        rw [held_eq_none hx] at hz
        contradiction
    . refine ⟨x, ?_⟩
      rw [held_construct, if_pos rfl]

theorem Good.unique_construct (h : s.Good) {z w : Nat} (hz : (s.construct x).held z = some p)
    (hw : (s.construct x).held w = some p) : z = w := by
  have hfree := h.not_held_alloc
  rw [held_construct] at hz hw
  split at hz
  . next hzx =>
    injection hz with hz
    split at hw
    . next hwx => rw [hzx, hwx]
    . exact absurd ⟨w, hz ▸ hw⟩ hfree
  . split at hw
    . injection hw with hw
      exact absurd ⟨z, hw ▸ hz⟩ hfree
    . exact h.unique z w p hz hw

theorem Good.construct (h : s.Good) (hx : s.refs x = none) : (s.construct x).Good := by
  have hheld := fun p => @held_construct_iff s x p hx
  have hunique := fun z w p => @Good.unique_construct s x p h z w
  have halloc := h.alloc
  have hfree := h.not_held_alloc
  unfold ObjectRefs.construct at *
  revert hheld halloc hfree hunique
  obtain ⟨obj, pool⟩ := s.pool.alloc
  intro hheld hunique halloc hfree
  dsimp only at *
  constructor
  . exact hunique
  . exact halloc.nodup
  . intro p hp
    rw [hheld] at hp
    rw [halloc.mem_q]
    rintro ⟨hmem, hne⟩
    exact h.not_mem p (hp.resolve_right hne) hmem
  . intro p
    rw [halloc.lt_allocated, halloc.mem_q, hheld, h.allocated]
    tauto
  . intro p hp
    rw [hheld] at hp
    dsimp only
    by_cases heq : p = obj
    . subst heq
      rw [Function.update_self, Function.update_self]
      refine ⟨Nat.lt_succ_self _, ?_, rfl⟩
      exact fun hmem => Nat.lt_irrefl _ (h.made _ hmem)
    . have hobject := h.object p (hp.resolve_right heq)
      rw [Function.update_of_ne heq, Function.update_of_ne (Nat.ne_of_lt hobject.1)]
      exact ⟨Nat.lt_succ_of_lt hobject.1, hobject.2⟩
  . intro o ho hlive
    dsimp only at *
    rw [hheld]
    obtain hlt | rfl := Nat.lt_succ_iff_lt_or_eq.mp ho
    . have hold := h.live o hlt hlive
      rw [Function.update_of_ne (Nat.ne_of_lt hlt), Function.update_of_ne]
      . exact ⟨Or.inl hold.1, hold.2⟩
      . exact fun heq => hfree (heq ▸ hold.1)
    . rw [Function.update_self, Function.update_self]
      exact ⟨Or.inr rfl, rfl⟩
  . exact h.once
  . exact fun o ho => Nat.lt_succ_of_lt (h.made o ho)
  . intro o ho
    dsimp only at *
    rw [halloc.lt_allocated]
    obtain hlt | rfl := Nat.lt_succ_iff_lt_or_eq.mp ho
    . rw [Function.update_of_ne (Nat.ne_of_lt hlt)]
      exact Or.inl (h.address o hlt)
    . rw [Function.update_self]
      exact Or.inr rfl

theorem held_remove {z : Nat} : (s.remove x).held z = if z = x then none else s.held z := by
  apply target_update

-- A ref that owns nothing leaves everything as it is.
theorem Good.remove (h : s.Good) (hx : s.held x = none) : (s.remove x).Good := by
  have hheld : ∀ z, (s.remove x).held z = s.held z := by
    intro z
    rw [held_remove]
    split
    . next heq => rw [heq, hx]
    . rfl
  apply h.refs
  . intro p
    apply exists_congr
    intro z
    rw [← hheld]
    rfl
  . intro z w p hz hw
    exact h.unique z w p ((hheld z).symm.trans hz) ((hheld w).symm.trans hw)

theorem Good.held_remove_iff (h : s.Good) (hx : s.held x = some p) {p' : Nat} :
    (s.remove x).Held p' ↔ s.Held p' ∧ p' ≠ p := by
  constructor
  . rintro ⟨z, hz⟩
    rw [held_remove] at hz
    split at hz
    . contradiction
    . next hne =>
      refine ⟨⟨z, hz⟩, ?_⟩
      rintro rfl
      exact hne (h.unique z x p' hz hx)
  . rintro ⟨⟨z, hz⟩, hne⟩
    refine ⟨z, ?_⟩
    rw [held_remove, if_neg]
    . exact hz
    . rintro rfl
      rw [hx] at hz
      injection hz with heq
      exact hne heq.symm

theorem Good.unique_remove (h : s.Good) {z w : Nat} (hz : (s.remove x).held z = some p)
    (hw : (s.remove x).held w = some p) : z = w := by
  rw [held_remove] at hz hw
  split at hz
  . contradiction
  . split at hw
    . contradiction
    . exact h.unique z w p hz hw

theorem Good.destroyObj (h : s.Good) (hx : s.held x = some p) :
    ((s.destroyObj p).remove x).Good := by
  have hheld : ∀ p', ((s.destroyObj p).remove x).Held p' ↔ s.Held p' ∧ p' ≠ p :=
    fun p' => h.held_remove_iff hx
  have hobject := h.object p ⟨x, hx⟩
  have hq : ∀ p', p' ∈ (s.pool.dealloc p).q ↔ p' ∈ s.pool.q ∨ p' = p := by
    intro p'
    unfold ObjectPool.dealloc
    rw [List.mem_append, List.mem_singleton]
  have hdestroyed : ∀ o, o ∈ (s.destroyObj p).destroyed ↔ o ∈ s.destroyed ∨ o = s.memory p := by
    intro o
    unfold ObjectRefs.destroyObj
    rw [List.mem_append, List.mem_singleton]
  constructor
  . exact fun z w p' hz hw => h.unique_remove hz hw
  . dsimp only [ObjectRefs.remove, ObjectRefs.destroyObj, ObjectPool.dealloc]
    rw [← List.concat_eq_append]
    exact h.nodup.concat (h.not_mem p ⟨x, hx⟩)
  . intro p' hp'
    rw [hheld] at hp'
    apply (hq p').not.mpr
    rw [not_or]
    exact ⟨h.not_mem p' hp'.1, hp'.2⟩
  . intro p'
    rw [hheld]
    have hiff := h.allocated p'
    apply hiff.trans
    apply Iff.trans _ (or_congr_left (hq p').symm)
    by_cases heq : p' = p
    . subst heq
      simp [show s.Held p' from ⟨x, hx⟩]
    . simp [heq]
  . intro p' hp'
    rw [hheld] at hp'
    have hold := h.object p' hp'.1
    refine ⟨hold.1, ?_, hold.2.2⟩
    apply (hdestroyed _).not.mpr
    rw [not_or]
    refine ⟨hold.2.1, ?_⟩
    intro heq
    apply hp'.2
    rw [← hold.2.2, ← hobject.2.2]
    exact congrArg s.address heq
  . intro o ho hlive
    have hlive := (hdestroyed o).not.mp hlive
    rw [not_or] at hlive
    have hold := h.live o ho hlive.1
    rw [hheld]
    refine ⟨⟨hold.1, ?_⟩, hold.2⟩
    intro heq
    apply hlive.2
    rw [← hold.2]
    exact congrArg s.memory heq
  . dsimp only [ObjectRefs.remove, ObjectRefs.destroyObj]
    rw [← List.concat_eq_append]
    exact h.once.concat hobject.2.1
  . intro o ho
    obtain ho | rfl := (hdestroyed o).mp ho
    . exact h.made o ho
    . exact hobject.1
  . exact h.address

theorem Good.destroy (h : s.Good) {r : ObjectPool.Ref} (hx : s.refs x = some r) :
    (s.destroy x r).Good := by
  have hheld : s.held x = r.target := by
    unfold held
    rw [hx]
    rfl
  unfold ObjectRefs.destroy
  split
  . next obj htarget => exact h.destroyObj (hheld.trans htarget)
  . next htarget => exact h.remove (hheld.trans htarget)

/-!
### Programs
-/

theorem Good.step {e : Event} (h : s.Good) (he : s.Lossless e) (hstep : s.step e = some s') :
    s'.Good := by
  cases e with
  | construct x =>
    obtain ⟨hx, hstep⟩ := Option.ite_none_right_eq_some.mp hstep
    injection hstep with heq
    exact heq ▸ h.construct (Option.isNone_iff_eq_none.mp hx)
  | copy x y =>
    obtain ⟨⟨hx, hy⟩, hstep⟩ := Option.ite_none_right_eq_some.mp hstep
    injection hstep with heq
    rw [Option.isNone_iff_eq_none] at hx
    have hne : x ≠ y := by
      rintro rfl
      rw [hx] at hy
      contradiction
    rw [← heq, copy_eq hne]
    exact h.move (Or.inr (held_eq_none hx))
  | assign x y =>
    obtain ⟨-, hstep⟩ := Option.ite_none_right_eq_some.mp hstep
    injection hstep with heq
    exact heq ▸ h.move he
  | destroy x =>
    obtain ⟨r, hx, rfl⟩ := Option.map_eq_some_iff.mp hstep
    exact h.destroy hx

theorem Good.exact_step_iff {e : Event} (h : s.Good) (hstep : s.step e = some s') :
    s'.Exact ↔ s.Lossless e := by
  constructor
  . intro hexact
    cases e with
    | assign x y =>
      obtain ⟨-, hstep⟩ := Option.ite_none_right_eq_some.mp hstep
      injection hstep with heq
      exact h.exact_move_iff.mp (heq ▸ hexact)
    | construct x => trivial
    | copy x y => trivial
    | destroy x => trivial
  . exact fun he => (h.step he hstep).exact

/--
In every program, every object is owned by one ref until it is destroyed, once, exactly as long as
nothing is assigned to a ref that owns an object, unless it is that ref itself.
-/
theorem exact_iff (es : List Event) :
    machine.Along (fun s e => ∀ s', s.step e = some s' → s'.Exact) ctor es
      ↔ machine.Along (fun s e => (s.step e).isSome → s.Lossless e) ctor es := by
  apply Machine.along_step_congr Good
  . exact fun s e s' h he hstep => h.step he hstep
  . exact fun s e s' h hstep => h.exact_step_iff hstep
  . exact good_ctor

-- Two objects, and the ref of the second one is assigned to that of the first one.
theorem exists_not_exact :
    ∃ s, machine.run ctor [.construct 0, .construct 1, .assign 0 1, .destroy 0, .destroy 1] = some s
      ∧ ¬s.Exact := by
  refine ⟨_, rfl, ?_⟩
  intro hexact
  have hcount := (hexact.gone ?_ 0 (by decide)).1
  . contradiction
  . intro x
    cases x with
    | zero => rfl
    | succ x =>
      cases x with
      | zero => rfl
      | succ x => rfl

end ObjectRefs
end Lax
