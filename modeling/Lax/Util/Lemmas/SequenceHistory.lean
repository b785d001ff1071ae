import Lax.Util.Impl.SequenceHistory
import Lax.Util.Lemmas.Sequence

/-!
This module contains what holds of a pool of ids whoever takes and releases them: every id is in one
place, and an id that has been released waits behind the ones that are in the queue.
-/

namespace Lax
namespace Sequence

variable {q q' : Sequence} {taken : Nat → Prop} {id : Nat}

-- As long as there are new ids, the queue is short of the reserve by one at most.
def Stocked (q : Sequence) : Prop :=
  q.current < q.endSeq → q.reserve - 1 ≤ q.seqs.length

theorem current_le_acquire (count : Nat) : q.current ≤ (q.acquire count).current := by
  apply acquire_induction (P := fun q' => q.current ≤ q'.current)
  . exact fun _ _ h => Nat.le_succ_of_le h
  . exact Nat.le_refl _

theorem seqs_acquire (count : Nat) : q.seqs <+: (q.acquire count).seqs := by
  apply acquire_induction (P := fun q' => q.seqs <+: q'.seqs)
  . exact fun _ _ h => h.trans (List.prefix_append _ _)
  . exact List.prefix_rfl

theorem length_acquire {count : Nat} (h : (q.acquire count).current < q.endSeq) :
    (q.acquire count).seqs.length = q.seqs.length + count := by
  induction count generalizing q with
  | zero => rfl
  | succ count ih =>
    by_cases hlt : q.current < q.endSeq
    . unfold acquire at h
      unfold acquire
      rw [if_pos hlt] at *
      rw [ih h]
      simp only [List.length_append, List.length_singleton]
      omega
    . have hle := @current_le_acquire q (count + 1)
      omega

theorem seqs_refill (q : Sequence) : q.seqs <+: q.refill.seqs := by
  unfold refill
  split
  . apply seqs_acquire
  . exact List.prefix_rfl

@[simp]
theorem reserve_refill : q.refill.reserve = q.reserve := by
  unfold refill
  split
  . apply reserve_acquire
  . rfl

theorem length_refill (h : q.refill.current < q.endSeq) : q.reserve ≤ q.refill.seqs.length := by
  unfold refill at *
  split at h
  . next hlt =>
    rw [if_pos hlt, length_acquire h]
    omega
  . next hge =>
    rw [if_neg hge]
    omega

theorem stocked_ctor (beginSeq endSeq reserve : Nat) : (ctor beginSeq endSeq reserve).Stocked := by
  intro hlt
  unfold ctor at *
  rw [endSeq_acquire] at hlt
  rw [reserve_acquire, length_acquire hlt]
  simp

-- What `next` takes is the first of the queue, if there is one.
theorem seqs_next (h : q.next = some (id, q')) : q.seqs <+: id :: q'.seqs := by
  have hrefill := seqs_refill q
  obtain ⟨seqs, hseqs, rfl⟩ | ⟨hseqs, -, -, -⟩ := next_cases h
  . rw [hseqs] at hrefill
    exact hrefill
  . rw [hseqs, List.prefix_nil] at hrefill
    rw [hrefill]
    apply List.nil_prefix

theorem reserve_next (h : q.next = some (id, q')) : q'.reserve = q.reserve := by
  obtain ⟨seqs, -, rfl⟩ | ⟨-, -, -, rfl⟩ := next_cases h
  . apply reserve_refill
  . apply reserve_refill

theorem stocked_next (h : q.next = some (id, q')) : q'.Stocked := by
  have hlength := @length_refill q
  intro hlt
  rw [reserve_next h]
  obtain ⟨seqs, hseqs, rfl⟩ | ⟨hseqs, -, -, rfl⟩ := next_cases h
  . rw [hseqs, List.length_cons] at hlength
    rw [endSeq_refill] at hlt
    have hle := hlength hlt
    dsimp only
    omega
  . rw [hseqs, List.length_nil] at hlength
    rw [endSeq_refill] at hlt
    have hle := hlength (Nat.lt_of_succ_lt hlt)
    omega

theorem Stocked.push (h : q.Stocked) (id : Nat) :
    { q with seqs := q.seqs ++ [id] }.Stocked := by
  intro hlt
  apply Nat.le_trans (h hlt)
  simp

end Sequence

namespace SequenceHistory

open Sequence (valid_ctor stocked_ctor seqs_next)

variable {s s' : SequenceHistory} {beginSeq endSeq reserve id : Nat}

structure Recycles (s : SequenceHistory) (beginSeq endSeq reserve : Nat) : Prop where
  partition : (s.held ++ s.seq.seqs ++ List.range' s.seq.current (endSeq - s.seq.current)).Perm
    (List.range' beginSeq (endSeq - beginSeq))
  returned : ∀ id seq, s.seq.next = some (id, seq) → beginSeq ≤ id ∧ id < endSeq ∧ id ∉ s.held
  exhausted : s.seq.next = none → ∀ id, beginSeq ≤ id → id < endSeq → id ∈ s.held
  delayed : s.seq.current < endSeq → ∀ id released es later seq,
    s.step (.release id) = some released
      → (machine beginSeq endSeq reserve).run released es = some later
      → later.seq.next = some (id, seq)
      → reserve - 1 ≤ (later.others released id).length

theorem step_cases {e : Event} (h : s.step e = some s') :
    e = .next ∧ s' = s.next ∨ ∃ id ∈ s.held, e = .release id ∧ s' = s.release id := by
  cases e with
  | next =>
    injection h with heq
    exact Or.inl ⟨rfl, heq.symm⟩
  | release id =>
    unfold step at h
    dsimp only at h
    split at h
    . next hid =>
      injection h with heq
      exact Or.inr ⟨id, hid, rfl, heq.symm⟩
    . contradiction

/-!
### The places of an id
-/

structure Good (s : SequenceHistory) (beginSeq endSeq reserve : Nat) : Prop where
  valid : s.seq.Valid (· ∈ s.held)
  nodup : s.held.Nodup
  stocked : s.seq.Stocked
  beginSeq_eq : s.seq.beginSeq = beginSeq
  endSeq_eq : s.seq.endSeq = endSeq
  reserve_eq : s.seq.reserve = reserve

theorem good_init (hlt : beginSeq < endSeq) (hreserve : reserve < endSeq - beginSeq + 1) :
    (machine beginSeq endSeq reserve).init.Good beginSeq endSeq reserve := by
  constructor
  . apply (valid_ctor (Nat.le_of_lt hlt) reserve).congr
    simp [machine]
  . exact List.nodup_nil
  . apply stocked_ctor
  . apply Sequence.beginSeq_acquire
  . apply Sequence.endSeq_acquire
  . apply (Sequence.reserve_acquire _).trans
    apply Nat.min_eq_right
    omega

theorem Good.next (h : s.Good beginSeq endSeq reserve) : s.next.Good beginSeq endSeq reserve := by
  unfold SequenceHistory.next
  split
  . exact h
  . next id seq hnext =>
    have hspec := h.valid.next hnext
    constructor
    . apply hspec.valid.congr
      simp
    . exact List.nodup_cons.mpr ⟨hspec.fresh, h.nodup⟩
    . exact Sequence.stocked_next hnext
    . exact hspec.beginSeq_eq.trans h.beginSeq_eq
    . exact hspec.endSeq_eq.trans h.endSeq_eq
    . exact (Sequence.reserve_next hnext).trans h.reserve_eq

theorem Good.release (h : s.Good beginSeq endSeq reserve) (hid : id ∈ s.held) :
    (s.release id).Good beginSeq endSeq reserve := by
  have hvalid := h.valid.release hid
  unfold SequenceHistory.release
  rw [h.valid.release_eq hid] at *
  constructor
  . apply hvalid.congr
    intro id'
    exact h.nodup.mem_erase_iff.symm
  . exact h.nodup.erase id
  . exact h.stocked.push id
  . exact h.beginSeq_eq
  . exact h.endSeq_eq
  . exact h.reserve_eq

theorem Good.step {e : Event} (h : s.Good beginSeq endSeq reserve) (hstep : s.step e = some s') :
    s'.Good beginSeq endSeq reserve := by
  obtain ⟨-, rfl⟩ | ⟨id, hid, -, rfl⟩ := step_cases hstep
  . exact h.next
  . exact h.release hid

theorem good_of_reachable (hlt : beginSeq < endSeq) (hreserve : reserve < endSeq - beginSeq + 1)
    (h : (machine beginSeq endSeq reserve).Reachable s) : s.Good beginSeq endSeq reserve := by
  apply Machine.inv_of_reachable (fun s => s.Good beginSeq endSeq reserve) _ _ h
  . exact good_init hlt hreserve
  . exact fun s e s' h hstep => h.step hstep

theorem Good.partition (h : s.Good beginSeq endSeq reserve) :
    (s.held ++ s.seq.seqs ++ List.range' s.seq.current (endSeq - s.seq.current)).Perm
      (List.range' beginSeq (endSeq - beginSeq)) := by
  have hbegin := h.valid.begin_le
  have hend := h.valid.le_end
  have hrange := h.valid.range
  rw [h.beginSeq_eq] at hbegin hrange
  rw [h.endSeq_eq] at hend
  rw [List.perm_ext_iff_of_nodup]
  . intro id
    rw [List.mem_append, List.mem_append, ← hrange, List.mem_range'_1, List.mem_range'_1]
    omega
  . rw [List.nodup_append', List.nodup_append']
    refine ⟨⟨h.nodup, h.valid.nodup, ?_⟩, List.nodup_range', ?_⟩
    . exact fun id hheld hseqs => h.valid.free id hseqs hheld
    . intro id hmem hid
      rw [List.mem_append, ← hrange] at hmem
      rw [List.mem_range'_1] at hid
      omega
  . exact List.nodup_range'

/-!
### The way through the queue
-/

-- What has been returned, and what is to be returned next.
def line (s : SequenceHistory) : List Nat :=
  s.returned ++ s.seq.seqs

theorem line_next (s : SequenceHistory) : s.line <+: s.next.line := by
  unfold next
  split
  . exact List.prefix_rfl
  . next id seq hnext =>
    unfold line
    rw [List.append_assoc, List.prefix_append_right_inj]
    exact seqs_next hnext

theorem line_release (s : SequenceHistory) (id : Nat) : s.line <+: (s.release id).line := by
  unfold line release Sequence.release
  rw [List.prefix_append_right_inj]
  split
  . apply List.prefix_append
  . exact List.prefix_rfl

theorem returned_next (s : SequenceHistory) : s.returned <+: s.next.returned := by
  unfold next
  split
  . exact List.prefix_rfl
  . apply List.prefix_append

structure Later (s s' : SequenceHistory) : Prop where
  line : s.line <+: s'.line
  returned : s.returned <+: s'.returned

theorem later_of_run {es : List Event} (hrun : (machine beginSeq endSeq reserve).run s es = some s') :
    Later s s' := by
  apply Machine.inv_of_run (Later s) _ hrun
  . exact ⟨List.prefix_rfl, List.prefix_rfl⟩
  . intro s' e s'' h hstep
    obtain ⟨-, rfl⟩ | ⟨id, -, -, rfl⟩ := step_cases hstep
    . exact ⟨h.line.trans s'.line_next, h.returned.trans s'.returned_next⟩
    . exact ⟨h.line.trans (s'.line_release id), h.returned⟩

-- Whoever is returned is the first in the queue, so that everybody in front of it has been returned.
theorem Later.front {front : List Nat} {seq : Sequence} (h : Later s s')
    (hseqs : s.seq.seqs = front ++ [id]) (hfront : id ∉ front)
    (hnext : s'.seq.next = some (id, seq)) : front <+: s'.returned.drop s.returned.length := by
  have hline := h.line
  obtain ⟨between, hbetween⟩ := h.returned
  unfold SequenceHistory.line at hline
  rw [hseqs, ← hbetween, List.append_assoc, List.prefix_append_right_inj] at hline
  rw [← hbetween, List.drop_left]
  have hwhole := (List.prefix_append front [id]).trans hline
  obtain hle | ⟨rest, hrest⟩ :=
    List.prefix_or_prefix_of_prefix hwhole (List.prefix_append between s'.seq.seqs)
  . exact hle
  . subst hrest
    cases rest with
    | nil =>
      refine ⟨[], ?_⟩
      rw [List.append_nil, List.append_nil]
    | cons first rest =>
      rw [List.append_assoc, List.prefix_append_right_inj] at hline
      have hhead := hline.trans (seqs_next hnext)
      rw [List.cons_append, List.cons_prefix_cons] at hhead
      rw [hhead.1] at hfront
      simp at hfront

theorem Good.delayed {released later : SequenceHistory} {es : List Event} {seq : Sequence}
    (h : s.Good beginSeq endSeq reserve) (hcurrent : s.seq.current < endSeq)
    (hstep : s.step (.release id) = some released)
    (hrun : (machine beginSeq endSeq reserve).run released es = some later)
    (hnext : later.seq.next = some (id, seq)) : reserve - 1 ≤ (later.others released id).length := by
  obtain ⟨heq, -⟩ | ⟨id', hid, heq, rfl⟩ := step_cases hstep
  . contradiction
  . injection heq with heq
    subst heq
    have hfront : id ∉ s.seq.seqs := fun hseqs => h.valid.free id hseqs hid
    have hseqs : (s.release id).seq.seqs = s.seq.seqs ++ [id] :=
      congrArg Sequence.seqs (h.valid.release_eq hid)
    have hreturned := (later_of_run hrun).front hseqs hfront hnext
    have hothers : s.seq.seqs ⊆ later.others (s.release id) id := by
      intro id' hid'
      unfold others
      rw [List.mem_dedup, List.mem_filter]
      refine ⟨hreturned.subset hid', ?_⟩
      rw [decide_eq_true_iff]
      exact fun heq => hfront (heq ▸ hid')
    have hstocked := h.stocked
    unfold Sequence.Stocked at hstocked
    rw [h.endSeq_eq, h.reserve_eq] at hstocked
    calc
      reserve - 1 ≤ s.seq.seqs.length := hstocked hcurrent
      _ ≤ (later.others (s.release id) id).length :=
        (List.subperm_of_subset h.valid.nodup hothers).length_le

/-!
### Recycling
-/

/--
In every run in which only ids that are held are released, once each, every id is in one place, `next`
returns one that nobody holds as long as there is one, and whoever is released while there are new ids
comes back behind `reserve - 1` others.
-/
theorem recycles_of_reachable (hlt : beginSeq < endSeq) (hreserve : reserve < endSeq - beginSeq + 1)
    (h : (machine beginSeq endSeq reserve).Reachable s) : s.Recycles beginSeq endSeq reserve := by
  have hgood := good_of_reachable hlt hreserve h
  constructor
  . exact hgood.partition
  . intro id seq hnext
    have hspec := hgood.valid.next hnext
    rw [← hgood.beginSeq_eq, ← hgood.endSeq_eq]
    exact ⟨hspec.begin_le, hspec.lt_end, hspec.fresh⟩
  . intro hnext
    rw [← hgood.beginSeq_eq, ← hgood.endSeq_eq]
    exact hgood.valid.next_eq_none hnext
  . intro hcurrent id released es later seq hstep hrun hnext
    exact hgood.delayed hcurrent hstep hrun hnext

theorem recycles_released : (⟨⟨1, 5, 4, 2, [3, 1]⟩, [2], [1, 2]⟩ : SequenceHistory).Recycles 1 5 2 :=
  recycles_of_reachable (by decide) (by decide) ⟨[.next, .next, .release 1], by decide⟩

end SequenceHistory
end Lax
