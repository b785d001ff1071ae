import Mathlib.Data.List.Nodup
import Mathlib.Data.List.Perm.Subperm
import Mathlib.Logic.Function.Basic
import Lax.Util.Impl.Sequence

/-!
This module contains what a pool of ids guarantees to whoever releases only ids that are taken.
-/

namespace Lax
namespace Sequence

-- The ids that have been taken out and not been released are those with `taken`.
structure Valid (q : Sequence) (taken : Nat → Prop) : Prop where
  nodup : q.seqs.Nodup
  free : ∀ id ∈ q.seqs, ¬taken id
  begin_le : q.beginSeq ≤ q.current
  le_end : q.current ≤ q.endSeq
  range : ∀ id, (q.beginSeq ≤ id ∧ id < q.current) ↔ (taken id ∨ id ∈ q.seqs)

variable {q q' : Sequence} {taken : Nat → Prop} {id : Nat}

theorem Valid.congr {taken' : Nat → Prop} (h : q.Valid taken) (hiff : ∀ id, taken id ↔ taken' id) :
    q.Valid taken' := by
  have heq : taken = taken' := funext fun id => propext (hiff id)
  exact heq ▸ h

theorem Valid.not_current (h : q.Valid taken) : ¬taken q.current ∧ q.current ∉ q.seqs := by
  rw [← not_or, ← h.range]
  omega

-- What both `acquire` and `next` do with the current id is to take the next one.
theorem Valid.advance (h : q.Valid taken) (hlt : q.current < q.endSeq) :
    { q with current := q.current + 1 }.Valid fun id => id = q.current ∨ taken id := by
  have hcurrent := h.not_current
  have hbegin := h.begin_le
  constructor
  . exact h.nodup
  . rintro id hid (rfl | htaken)
    . exact hcurrent.2 hid
    . exact h.free id hid htaken
  . exact Nat.le_succ_of_le hbegin
  . exact hlt
  . intro id
    have hrange := h.range id
    dsimp only
    rw [or_assoc, ← hrange]
    omega

-- An id that is no longer taken goes to the end of the queue.
theorem Valid.push (h : q.Valid taken) (htaken : taken id) :
    { q with seqs := q.seqs ++ [id] }.Valid fun id' => id' ≠ id ∧ taken id' := by
  constructor
  . dsimp only
    rw [← List.concat_eq_append]
    exact h.nodup.concat fun hid => h.free id hid htaken
  . intro id' hid' htaken'
    rw [List.mem_append, List.mem_singleton] at hid'
    obtain hid' | heq := hid'
    . exact h.free id' hid' htaken'.2
    . exact htaken'.1 heq
  . exact h.begin_le
  . exact h.le_end
  . intro id'
    dsimp only
    rw [h.range id', List.mem_append, List.mem_singleton]
    by_cases heq : id' = id
    . subst heq
      simp [htaken]
    . simp [heq]

-- Whatever one more id in the queue leaves as it is, `acquire` does.
theorem acquire_induction {P : Sequence → Prop}
    (hstep : ∀ q, q.current < q.endSeq → P q
      → P { q with seqs := q.seqs ++ [q.current], current := q.current + 1 })
    (h : P q) (count : Nat) : P (q.acquire count) := by
  induction count generalizing q with
  | zero => exact h
  | succ count ih =>
    unfold acquire
    apply ih
    split
    . next hlt => exact hstep q hlt h
    . exact h

theorem Valid.acquire (h : q.Valid taken) (count : Nat) : (q.acquire count).Valid taken := by
  apply acquire_induction (P := fun q => q.Valid taken) _ h
  intro q hlt h
  apply ((h.advance hlt).push (Or.inl rfl)).congr
  intro id
  constructor
  . rintro ⟨hne, heq | htaken⟩
    . exact absurd heq hne
    . exact htaken
  . intro htaken
    exact ⟨fun heq => h.not_current.1 (heq ▸ htaken), Or.inr htaken⟩

@[simp]
theorem beginSeq_acquire (count : Nat) : (q.acquire count).beginSeq = q.beginSeq :=
  acquire_induction (P := fun q' => q'.beginSeq = q.beginSeq) (fun _ _ h => h) rfl count

@[simp]
theorem endSeq_acquire (count : Nat) : (q.acquire count).endSeq = q.endSeq :=
  acquire_induction (P := fun q' => q'.endSeq = q.endSeq) (fun _ _ h => h) rfl count

@[simp]
theorem reserve_acquire (count : Nat) : (q.acquire count).reserve = q.reserve :=
  acquire_induction (P := fun q' => q'.reserve = q.reserve) (fun _ _ h => h) rfl count

theorem valid_ctor {beginSeq endSeq : Nat} (h : beginSeq ≤ endSeq) (reserve : Nat) :
    (ctor beginSeq endSeq reserve).Valid fun _ => False := by
  unfold ctor
  apply Valid.acquire
  constructor
  . exact List.nodup_nil
  . exact fun _ _ h => h
  . exact Nat.le_refl _
  . exact h
  . intro id
    simp only [List.not_mem_nil, or_false, iff_false]
    omega

-- The queue after `next` has refilled it.
def refill (q : Sequence) : Sequence :=
  if q.seqs.length < q.reserve then q.acquire (q.reserve - q.seqs.length) else q

theorem Valid.refill (h : q.Valid taken) : q.refill.Valid taken := by
  unfold Sequence.refill
  split
  . exact h.acquire _
  . exact h

theorem next_eq (q : Sequence) :
    q.next
      =
    match q.refill.seqs with
    | value :: seqs => some (value, { q.refill with seqs := seqs })
    | [] =>
      if q.refill.current = q.refill.endSeq then
        none
      else
        some (q.refill.current, { q.refill with current := q.refill.current + 1 }) := rfl

-- Either the first of the queue or, when the queue cannot be filled, the current id.
theorem next_cases (h : q.next = some (id, q')) :
    (∃ seqs, q.refill.seqs = id :: seqs ∧ q' = { q.refill with seqs := seqs })
      ∨ q.refill.seqs = [] ∧ q.refill.current ≠ q.refill.endSeq ∧ id = q.refill.current
        ∧ q' = { q.refill with current := q.refill.current + 1 } := by
  rw [next_eq] at h
  split at h
  . next seqs hseqs =>
    injection h with h
    injection h with hid hq
    subst hid
    exact Or.inl ⟨seqs, hseqs, hq.symm⟩
  . next hseqs =>
    split at h
    . contradiction
    . next hne =>
      injection h with h
      injection h with hid hq
      exact Or.inr ⟨hseqs, hne, hid.symm, hq.symm⟩

@[simp]
theorem beginSeq_refill : q.refill.beginSeq = q.beginSeq := by
  unfold refill
  split
  . apply beginSeq_acquire
  . rfl

@[simp]
theorem endSeq_refill : q.refill.endSeq = q.endSeq := by
  unfold refill
  split
  . apply endSeq_acquire
  . rfl

-- What a successful `next` does.
structure Next (q : Sequence) (taken : Nat → Prop) (id : Nat) (q' : Sequence) : Prop where
  fresh : ¬taken id
  begin_le : q.beginSeq ≤ id
  lt_end : id < q.endSeq
  beginSeq_eq : q'.beginSeq = q.beginSeq
  endSeq_eq : q'.endSeq = q.endSeq
  valid : q'.Valid fun id' => id' = id ∨ taken id'

theorem Valid.pop (h : q.Valid taken) {seqs : List Nat} (hseqs : q.seqs = id :: seqs) :
    Next q taken id { q with seqs := seqs } := by
  have hmem : id ∈ q.seqs := hseqs ▸ List.mem_cons_self
  have hin := (h.range id).mpr (Or.inr hmem)
  have hend := h.le_end
  have hnodup := h.nodup
  rw [hseqs, List.nodup_cons] at hnodup
  refine ⟨h.free id hmem, hin.1, by omega, rfl, rfl, ?_⟩
  constructor
  . exact hnodup.2
  . rintro id' hid' (rfl | htaken)
    . exact hnodup.1 hid'
    . exact h.free id' (hseqs ▸ List.mem_cons_of_mem _ hid') htaken
  . exact h.begin_le
  . exact h.le_end
  . intro id'
    have hrange := h.range id'
    rw [hseqs, List.mem_cons, or_left_comm, ← or_assoc] at hrange
    exact hrange

theorem Valid.next (h : q.Valid taken) (hnext : q.next = some (id, q')) : Next q taken id q' := by
  have hrefill := h.refill
  have hnext' : Next q.refill taken id q' := by
    obtain ⟨seqs, hseqs, rfl⟩ | ⟨-, hne, rfl, rfl⟩ := next_cases hnext
    . exact hrefill.pop hseqs
    . have hlt := Nat.lt_of_le_of_ne hrefill.le_end hne
      exact ⟨hrefill.not_current.1, hrefill.begin_le, hlt, rfl, rfl, hrefill.advance hlt⟩
  obtain ⟨hfresh, hbegin, hlt, hbeginSeq, hendSeq, hvalid⟩ := hnext'
  rw [beginSeq_refill] at hbegin hbeginSeq
  rw [endSeq_refill] at hlt hendSeq
  exact ⟨hfresh, hbegin, hlt, hbeginSeq, hendSeq, hvalid⟩

theorem Valid.next_eq_none (h : q.Valid taken) (hnext : q.next = none) :
    ∀ id, q.beginSeq ≤ id → id < q.endSeq → taken id := by
  have hrefill := h.refill
  rw [next_eq] at hnext
  split at hnext
  . contradiction
  . next hseqs =>
    split at hnext
    . next heq =>
      intro id hbegin hend
      have hrange := hrefill.range id
      rw [hseqs, heq, beginSeq_refill, endSeq_refill] at hrange
      simpa using hrange.mp ⟨hbegin, hend⟩
    . contradiction

theorem exists_next_ctor {beginSeq endSeq : Nat} (h : beginSeq < endSeq) (reserve : Nat) :
    ∃ id q, (ctor beginSeq endSeq reserve).next = some (id, q) := by
  cases hnext : (ctor beginSeq endSeq reserve).next with
  | none =>
    have hvalid := valid_ctor (Nat.le_of_lt h) reserve
    have hall := hvalid.next_eq_none hnext beginSeq
    unfold ctor at hall
    rw [beginSeq_acquire, endSeq_acquire] at hall
    exact (hall (Nat.le_refl _) h).elim
  | some r => exact ⟨r.1, r.2, rfl⟩

theorem Valid.release_eq (h : q.Valid taken) (hid : taken id) :
    q.release id = { q with seqs := q.seqs ++ [id] } := by
  have hin := (h.range id).mpr (Or.inl hid)
  have hend := h.le_end
  unfold Sequence.release
  apply if_pos
  omega

theorem Valid.release (h : q.Valid taken) (hid : taken id) :
    (q.release id).Valid fun id' => id' ≠ id ∧ taken id' := by
  rw [h.release_eq hid]
  exact h.push hid

/-!
### Pools of keys

The ids that are taken are the keys of a map.
-/

section
variable {γ : Type} {f : Nat → Option γ}

theorem Valid.update (h : q.Valid fun id' => id' = id ∨ f id' ≠ none) (x : γ) :
    q.Valid fun id' => Function.update f id (some x) id' ≠ none := by
  apply h.congr
  intro id'
  by_cases heq : id' = id
  . subst heq
    simp
  . simp [heq]

theorem Valid.erase (h : q.Valid fun id' => id' ≠ id ∧ f id' ≠ none) :
    q.Valid fun id' => Function.update f id none id' ≠ none := by
  apply h.congr
  intro id'
  by_cases heq : id' = id
  . subst heq
    simp
  . simp [heq]

end

/-!
### How many can be taken
-/

theorem Valid.length_le {drawn : List Nat} (h : q.Valid (· ∈ drawn)) (hnodup : drawn.Nodup) :
    drawn.length ≤ q.endSeq - q.beginSeq := by
  have hsubset : drawn ⊆ List.range' q.beginSeq (q.endSeq - q.beginSeq) := by
    intro id hid
    have hrange := (h.range id).mpr (Or.inl hid)
    have hend := h.le_end
    rw [List.mem_range'_1]
    omega
  have hle := (List.subperm_of_subset hnodup hsubset).length_le
  rw [List.length_range'] at hle
  exact hle

-- A pool is empty only when everything has been taken out of it.
theorem Valid.le_length {drawn : List Nat} (h : q.Valid taken) (hnext : q.next = none)
    (hdrawn : ∀ id, taken id → id ∈ drawn) : q.endSeq - q.beginSeq ≤ drawn.length := by
  have hsubset : List.range' q.beginSeq (q.endSeq - q.beginSeq) ⊆ drawn := by
    intro id hid
    rw [List.mem_range'_1] at hid
    apply hdrawn
    apply h.next_eq_none hnext
    . omega
    . omega
  have hle := (List.subperm_of_subset List.nodup_range' hsubset).length_le
  rw [List.length_range'] at hle
  exact hle

/-!
### What can still be handed out
-/

def Available (q : Sequence) (id : Nat) : Prop :=
  id ∈ q.seqs ∨ q.current ≤ id

theorem available_acquire (count : Nat) : (q.acquire count).Available id ↔ q.Available id := by
  apply acquire_induction (P := fun q' => q'.Available id ↔ q.Available id) _ Iff.rfl
  intro q' _ h
  rw [← h]
  unfold Available
  rw [List.mem_append, List.mem_singleton, or_assoc]
  apply or_congr_right
  dsimp only
  omega

theorem available_refill : q.refill.Available id ↔ q.Available id := by
  unfold refill
  split
  . apply available_acquire
  . rfl

theorem available_of_next {value : Nat} (h : q.next = some (value, q')) :
    q.Available value ∧ ∀ id, q'.Available id → q.Available id := by
  have hiff := fun id => @available_refill q id
  rw [← hiff]
  obtain ⟨seqs, hseqs, rfl⟩ | ⟨-, -, rfl, rfl⟩ := next_cases h
  . refine ⟨?_, ?_⟩
    . left
      rw [hseqs]
      exact List.mem_cons_self
    . intro id hid
      rw [← hiff]
      unfold Available at *
      rw [hseqs]
      exact hid.imp_left (List.mem_cons_of_mem _)
  . refine ⟨Or.inr (Nat.le_refl _), ?_⟩
    intro id hid
    rw [← hiff]
    exact hid.imp_right Nat.le_of_succ_le

theorem Valid.available_iff (h : q.Valid taken) (hid : q.beginSeq ≤ id) :
    q.Available id ↔ ¬taken id := by
  have hrange := h.range id
  constructor
  . rintro (hmem | hle) htaken
    . exact h.free id hmem htaken
    . have := hrange.mpr (Or.inl htaken)
      omega
  . intro hfree
    rw [or_iff_right hfree] at hrange
    unfold Available
    rw [← hrange]
    omega

/-!
### Room
-/

-- How many ids can be taken out even if none is released.
def room (q : Sequence) : Nat :=
  q.seqs.length + (q.endSeq - q.current)

theorem room_acquire (count : Nat) : (q.acquire count).room = q.room := by
  apply acquire_induction (P := fun q' => q'.room = q.room) _ rfl
  intro q' hlt h
  rw [← h, room, room]
  dsimp only
  rw [List.length_append, List.length_singleton]
  omega

theorem room_ctor (beginSeq endSeq reserve : Nat) :
    (ctor beginSeq endSeq reserve).room = endSeq - beginSeq := by
  unfold ctor
  rw [room_acquire]
  exact Nat.zero_add _

theorem room_refill : q.refill.room = q.room := by
  unfold refill
  split
  . exact room_acquire _
  . rfl

theorem Valid.exists_next (h : q.Valid taken) (hroom : 0 < q.room) :
    ∃ id q', q.next = some (id, q') ∧ q'.room + 1 = q.room := by
  have hend := h.refill.le_end
  rw [← room_refill, room] at hroom
  rw [← room_refill, next_eq, room]
  split
  . next value seqs hseqs =>
    refine ⟨_, _, rfl, ?_⟩
    rw [room]
    dsimp only
    rw [hseqs, List.length_cons]
    omega
  . next hseqs =>
    rw [hseqs, List.length_nil] at hroom
    rw [if_neg (by omega)]
    refine ⟨_, _, rfl, ?_⟩
    rw [room]
    dsimp only
    rw [hseqs, List.length_nil]
    omega

end Sequence
end Lax
