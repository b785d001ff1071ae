import Mathlib.Algebra.Order.BigOperators.Group.List
import Mathlib.Algebra.Order.Ring.Nat
import Lax.Channel.Lemmas.LockedChannel

/-!
This module contains what conditions and callbacks may do to a channel without a lock, and with it when
a dispatch that they are called from does what it should.
-/

namespace Lax

variable {W P : Type}

section

variable (map : SubMap (Handler W P)) (own : EntryLink) (topics : List Topic)

-- On every way through the script: nobody is added where the dispatch looks, nobody goes who is in the
-- entry of the script itself, and no more than `n` keys are drawn. `mine` are keys from the script.
def Script.Spares : Script W P → List Nat → Nat → Prop
  | .ret _, _, _ => True
  | .outside _ next, mine, n => ∀ w, (next w).Spares mine n
  | .subscribe topic _ _ mode next, mine, n =>
    (mode = own.mode → topic ∉ topics) ∧ 0 < n ∧ ∀ key, (next key).Spares (key :: mine) (n - 1)
  | .unsubscribe key next, mine, n =>
    (key ∈ mine ∨ map.keys key ≠ some own) ∧ ∀ removed, (next removed).Spares mine n

def Sub.Spares (sub : Sub (Handler W P)) (m : Message P) (n : Nat) : Prop :=
  sub.topic.isMatch m.topic = true → ∃ a b, a + b ≤ n
    ∧ (sub.action.cond m).Spares map ⟨sub.topic, sub.mode⟩ topics [] a
    ∧ (sub.action.cb m).Spares map ⟨sub.topic, sub.mode⟩ topics [] b

end

namespace LockedChannel

variable {s : LockedChannel W P} {map : SubMap (Handler W P)} {mode : Mode} {topics : List Topic}
  {own : EntryLink} {m : Message P} {n : Nat}

-- Where the dispatch looks, some may have gone since its start, but nobody has come.
structure Sparing (map : SubMap (Handler W P)) (mode : Mode) (topics : List Topic) (n : Nat)
    (s : LockedChannel W P) : Prop where
  inv : s.map.Inv
  unlocked : s.useLock = false
  sublist : ∀ topic ∈ topics, (s.map.lookup mode topic).Sublist (map.lookup mode topic)
  room : n ≤ s.map.seq.room

theorem Sparing.mono {n' : Nat} (h : Sparing map mode topics n s) (hle : n' ≤ n) :
    Sparing map mode topics n' s :=
  ⟨h.inv, h.unlocked, h.sublist, Nat.le_trans hle h.room⟩

/-!
### Scripts
-/

-- What is in the entry now was in it at the start.
theorem Sparing.keys_eq (h : Sparing map mode topics n s) (hmap : map.Consistent) {topic : Topic}
    (htopic : topic ∈ topics) (hvalid : topic.isValid = true) {key : Nat}
    (hkey : s.map.keys key = some ⟨topic, mode⟩) : map.keys key = some ⟨topic, mode⟩ := by
  obtain ⟨subs, sub, hsubs, hfilter⟩ := h.inv.found key topic mode hkey
  have hmem : sub ∈ subs.filter (·.key = key) := hfilter ▸ List.mem_singleton_self sub
  obtain ⟨hmem, hsub⟩ := List.mem_filter.mp hmem
  have hlookup : sub ∈ s.map.lookup mode topic := by
    rw [SubMap.lookup, if_pos hvalid, hsubs]
    exact hmem
  obtain ⟨hlive, rfl, rfl, -⟩ := hmap.mem_lookup_iff.mp ((h.sublist topic htopic).subset hlookup)
  rw [← of_decide_eq_true hsub]
  exact hmap.keys_of_live hlive

def leaving (key : Nat) : Handler W P where
  cond := fun _ => .ret true
  cb := fun _ => .unsubscribe key fun _ => .ret true

end LockedChannel
end Lax
