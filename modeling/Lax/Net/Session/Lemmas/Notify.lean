import Lax.Net.Session.Impl.Notify
import Lax.Net.Session.Lemmas.SubsClose

/-!
This module contains who is told about the end of a session, and when the loop that tells them takes
its own vector to pieces.
-/

namespace Lax
namespace SubsClose

variable {W : Type} {s s' : SubsClose (CloseCallback W)} {id : UInt32} {key : Nat} {keys : List Nat}
  {vec rest : List (Nat × CloseCallback W)} {w : W} {p : Notified W} {count : Nat}

-- Everyone who has not been unsubscribed before its turn is called once, nobody else is, and nothing
-- of the session stays behind.
structure Reached (s : SubsClose (CloseCallback W)) (id : UInt32) (p : Notified W) : Prop where
  once : (p.turns.map (·.key)).Nodup
  registered : ∀ t ∈ p.turns, t.key ∈ s.live id
  inTime : p.turns.Pairwise fun t t' => t'.key ∉ t.unsubscribed
  everyone : ∀ key ∈ s.live id, (∃ t ∈ p.turns, t.key = key) ∨ ∃ t ∈ p.turns, key ∈ t.unsubscribed
  subs_eq : p.subsClose.subs id = none
  index_ne : ∀ key, p.subsClose.index key ≠ some id

-- Nobody unsubscribes, when it is called, itself or anyone after it.
def Quiet : List (Nat × CloseCallback W) → W → Prop
  | [], _ => True
  | (key, cb) :: vec, w =>
    (∀ key' ∈ (cb w).1, key' ∉ key :: vec.map Prod.fst) ∧ Quiet vec (cb w).2

/-!
### Unsubscribing in a callback
-/

theorem erases_iff : s.erases id key = true ↔ s.index key = some id ∧ key ∈ s.live id := by
  simp [erases, live]

theorem subs_unsubscribe (h : s.erases id key = false) : (s.unsubscribe key).subs id = s.subs id := by
  rw [← Bool.not_eq_true, erases_iff] at h
  unfold unsubscribe
  cases hindex : s.index key with
  | none => rfl
  | some id' =>
    dsimp only
    cases hsubs : s.subs id' with
    | none => rfl
    | some vec =>
      dsimp only
      by_cases heq : id = id'
      . subst heq
        rw [Function.update_self, hsubs, List.filter_eq_self.mpr]
        intro entry hentry
        apply decide_eq_true
        rintro rfl
        apply h
        refine ⟨hindex, ?_⟩
        unfold live
        rw [hsubs]
        exact List.mem_map_of_mem hentry
      . rw [Function.update_of_ne heq]

-- What the callbacks leave alone.
structure Untouched (s : SubsClose (CloseCallback W)) (id : UInt32)
    (s' : SubsClose (CloseCallback W)) : Prop where
  subs_eq : s'.subs id = s.subs id
  index_eq : s'.index = s.index
  keySeq_eq : s'.keySeq = s.keySeq
  sublist : ∀ id', (s'.live id').Sublist (s.live id')

theorem erases_unsubscribe (h : s.erases id key = false) (key' : Nat) :
    (s.unsubscribe key).erases id key' = s.erases id key' := by
  unfold erases
  rw [index_unsubscribe, subs_unsubscribe h]

theorem untouched_of_unsubscribeIn (h : s.unsubscribeIn id keys = some s') : Untouched s id s' := by
  induction keys generalizing s with
  | nil =>
    injection h with h
    subst h
    exact ⟨rfl, rfl, rfl, fun _ => List.Sublist.refl _⟩
  | cons key keys ih =>
    unfold unsubscribeIn at h
    cases herases : s.erases id key with
    | true =>
      rw [herases, if_pos rfl] at h
      contradiction
    | false =>
      rw [herases, if_neg Bool.false_ne_true] at h
      have hrest := ih h
      constructor
      . rw [hrest.subs_eq, subs_unsubscribe herases]
      . rw [hrest.index_eq, index_unsubscribe]
      . rw [hrest.keySeq_eq, keySeq_unsubscribe]
      . exact fun id' => (hrest.sublist id').trans (sublist_unsubscribe s key id')

theorem exists_unsubscribeIn_iff :
    (∃ s', s.unsubscribeIn id keys = some s') ↔ ∀ key ∈ keys, s.erases id key = false := by
  induction keys generalizing s with
  | nil => exact iff_of_true ⟨s, rfl⟩ fun _ h => absurd h List.not_mem_nil
  | cons key keys ih =>
    unfold unsubscribeIn
    rw [List.forall_mem_cons]
    cases herases : s.erases id key with
    | true =>
      rw [if_pos rfl]
      apply iff_of_false
      . rintro ⟨s', h⟩
        contradiction
      . rintro ⟨h, -⟩
        contradiction
    | false =>
      rw [if_neg Bool.false_ne_true, ih, and_iff_right rfl]
      apply forall₂_congr
      intro key' _
      rw [erases_unsubscribe herases]

/-!
### The loop
-/

-- `rest` is what is still in front of the loop. Whoever has had a turn is no longer in the index.
structure Running (s : SubsClose (CloseCallback W)) (id : UInt32)
    (rest : List (Nat × CloseCallback W)) : Prop where
  subset : rest.map Prod.fst ⊆ s.live id
  nodup : (rest.map Prod.fst).Nodup
  index_iff : ∀ key ∈ s.live id, s.index key = some id ↔ key ∈ rest.map Prod.fst

theorem Running.erases_eq_false_iff (h : Running s id rest) :
    s.erases id key = false ↔ key ∉ rest.map Prod.fst := by
  rw [← Bool.not_eq_true, erases_iff, not_iff_not]
  constructor
  . rintro ⟨hindex, hlive⟩
    exact (h.index_iff key hlive).mp hindex
  . intro hmem
    have hlive := h.subset hmem
    exact ⟨(h.index_iff key hlive).mpr hmem, hlive⟩

theorem live_eq_of_subs_eq (h : s'.subs id = s.subs id) : s'.live id = s.live id := by
  unfold live
  rw [h]

theorem Running.next {cb : CloseCallback W} (h : Running s id ((key, cb) :: rest))
    (huntouched : Untouched s id s') :
    Running { s' with index := Function.update s'.index key none } id rest := by
  obtain ⟨hsubset, hnodup, hindex⟩ := h
  rw [List.map_cons] at hsubset hnodup hindex
  rw [List.nodup_cons] at hnodup
  have hlive : SubsClose.live { s' with index := Function.update s'.index key none } id = s.live id :=
    live_eq_of_subs_eq huntouched.subs_eq
  constructor
  . rw [hlive]
    exact fun key' hkey' => hsubset (List.mem_cons_of_mem _ hkey')
  . exact hnodup.2
  . intro key' hkey'
    rw [hlive] at hkey'
    have hiff := hindex key' hkey'
    dsimp only
    by_cases heq : key' = key
    . subst heq
      rw [Function.update_self]
      exact iff_of_false (fun hnone => nomatch hnone) hnodup.1
    . rw [Function.update_of_ne heq, huntouched.index_eq, hiff, List.mem_cons, or_iff_right heq]

-- What the loop does when it gets to the end.
structure Looped (s : SubsClose (CloseCallback W)) (id : UInt32)
    (rest : List (Nat × CloseCallback W)) (p : Notified W) : Prop where
  key_eq : p.turns.map (·.key) = rest.map Prod.fst
  inTime : p.turns.Pairwise fun t t' => t'.key ∉ t.unsubscribed
  keySeq_eq : p.subsClose.keySeq = s.keySeq
  sublist : ∀ id', (p.subsClose.live id').Sublist (s.live id')
  gone : ∀ key ∈ rest.map Prod.fst, p.subsClose.index key = none
  stays : ∀ key, key ∉ rest.map Prod.fst → p.subsClose.index key = s.index key

theorem looped_of_postLoop (h : Running s id rest) (hloop : postLoop id count rest s w = some p) :
    Looped s id rest p := by
  induction rest generalizing s w p with
  | nil =>
    injection hloop with hloop
    subst hloop
    constructor
    . rfl
    . exact List.Pairwise.nil
    . rfl
    . exact fun _ => List.Sublist.refl _
    . exact fun key hkey => absurd hkey List.not_mem_nil
    . exact fun key _ => rfl
  | cons entry rest ih =>
    obtain ⟨key, cb⟩ := entry
    unfold postLoop at hloop
    dsimp only at hloop
    cases hin : s.unsubscribeIn id (cb w).1 with
    | none =>
      rw [hin] at hloop
      contradiction
    | some s' =>
      rw [hin] at hloop
      obtain ⟨p', hloop', rfl⟩ := Option.map_eq_some_iff.mp hloop
      have huntouched := untouched_of_unsubscribeIn hin
      have hrest := ih (h.next huntouched) hloop'
      have hquiet := exists_unsubscribeIn_iff.mp ⟨s', hin⟩
      constructor
      . rw [List.map_cons, List.map_cons, hrest.key_eq]
      . rw [List.pairwise_cons]
        refine ⟨?_, hrest.inTime⟩
        intro t ht hmem
        apply h.erases_eq_false_iff.mp (hquiet t.key hmem)
        apply List.mem_cons_of_mem
        rw [← hrest.key_eq]
        exact List.mem_map_of_mem ht
      . rw [hrest.keySeq_eq, huntouched.keySeq_eq]
      . exact fun id' => (hrest.sublist id').trans (huntouched.sublist id')
      . intro key' hkey'
        by_cases hmem : key' ∈ rest.map Prod.fst
        . exact hrest.gone key' hmem
        . have heq := (List.mem_cons.mp hkey').resolve_right hmem
          dsimp only at heq
          rw [hrest.stays key' hmem, heq]
          apply Function.update_self
      . intro key' hkey'
        have hne := List.ne_of_not_mem_cons hkey'
        have hmem := List.not_mem_of_not_mem_cons hkey'
        rw [hrest.stays key' hmem, ← huntouched.index_eq]
        apply Function.update_of_ne hne

theorem exists_postLoop_iff (h : Running s id rest) :
    (∃ p, postLoop id count rest s w = some p) ↔ Quiet rest w := by
  induction rest generalizing s w with
  | nil => exact iff_of_true ⟨_, rfl⟩ trivial
  | cons entry rest ih =>
    obtain ⟨key, cb⟩ := entry
    have hquiet : (∃ s', s.unsubscribeIn id (cb w).1 = some s')
        ↔ ∀ key' ∈ (cb w).1, key' ∉ key :: rest.map Prod.fst := by
      rw [exists_unsubscribeIn_iff]
      apply forall₂_congr
      intro key' _
      rw [h.erases_eq_false_iff, List.map_cons]
    unfold postLoop Quiet
    dsimp only
    rw [← hquiet]
    cases hin : s.unsubscribeIn id (cb w).1 with
    | none =>
      apply iff_of_false
      . rintro ⟨p, hp⟩
        contradiction
      . rintro ⟨⟨s', hs'⟩, -⟩
        contradiction
    | some s' =>
      have hnext := h.next (untouched_of_unsubscribeIn hin)
      rw [and_iff_right ⟨s', rfl⟩, ← ih hnext, ← Option.isSome_iff_exists,
        ← Option.isSome_iff_exists]
      apply Bool.eq_iff_iff.mp
      apply Option.isSome_map

/-!
### Callbacks that unsubscribe nothing
-/

def Silent (vec : List (Nat × CloseCallback W)) : Prop :=
  ∀ entry ∈ vec, ∀ w, (entry.2 w).1 = []

theorem postLoop_of_silent (h : Silent rest) (s : SubsClose (CloseCallback W)) (w : W) :
    ∃ p, postLoop id count rest s w = some p ∧ p.count = count ∧ p.subsClose = {
      s with index := rest.foldl (fun index entry => Function.update index entry.1 none) s.index } := by
  induction rest generalizing s w with
  | nil => exact ⟨_, rfl, rfl, rfl⟩
  | cons entry rest ih =>
    obtain ⟨key, cb⟩ := entry
    have hnil : (cb w).1 = [] := h (key, cb) List.mem_cons_self w
    obtain ⟨p, hp, hcount, hsubsClose⟩ := ih (fun entry hentry => h entry (List.mem_cons_of_mem _ hentry))
      { s with index := Function.update s.index key none } (cb w).2
    unfold postLoop
    dsimp only
    rw [hnil]
    exact ⟨_, Option.map_eq_some_iff.mpr ⟨p, hp, rfl⟩, hcount, hsubsClose⟩

theorem notify_of_silent (h : Silent ((s.subs id).getD [])) (w : W) :
    ∃ p, s.notify id w = some p ∧ p.count = (s.post id).1.length
      ∧ p.subsClose = (s.post id).2 := by
  unfold SubsClose.notify SubsClose.post
  cases hsubs : s.subs id with
  | none => exact ⟨_, rfl, rfl, rfl⟩
  | some vec =>
    rw [hsubs] at h
    obtain ⟨p, hp, hcount, hsubsClose⟩ := @postLoop_of_silent _ id vec vec.length h s w
    refine ⟨_, Option.map_eq_some_iff.mpr ⟨p, hp, rfl⟩, ?_, ?_⟩
    . dsimp only
      rw [hcount, List.length_map]
    . dsimp only
      rw [hsubsClose]
      rfl

/-!
### Reachable states
-/

variable {drawn : List Nat}

theorem Indexed.running (h : s.Indexed drawn) {vec : List (Nat × CloseCallback W)}
    (hsubs : s.subs id = some vec) : Running s id vec := by
  have hlive : s.live id = vec.map Prod.fst := by
    unfold live
    rw [hsubs]
    rfl
  have hunique := h.unique id
  rw [hlive] at hunique
  constructor
  . rw [hlive]
    exact List.Subset.refl _
  . exact hunique
  . intro key hkey
    rw [← hlive]
    exact iff_of_true (h.index_eq id key hkey) hkey

theorem live_removeSubs (s : SubsClose (CloseCallback W)) (id id' : UInt32) :
    (s.removeSubs id).live id' = if id' = id then [] else s.live id' := by
  unfold removeSubs live
  by_cases heq : id' = id
  . subst heq
    simp
  . simp [heq]

theorem Indexed.notify (h : s.Indexed drawn) (hnotify : s.notify id w = some p) :
    p.subsClose.Indexed drawn := by
  unfold SubsClose.notify at hnotify
  cases hsubs : s.subs id with
  | none =>
    rw [hsubs] at hnotify
    injection hnotify with hnotify
    subst hnotify
    exact h
  | some vec =>
    rw [hsubs] at hnotify
    obtain ⟨p, hloop, rfl⟩ := Option.map_eq_some_iff.mp hnotify
    have hrunning := h.running hsubs
    have hlooped := looped_of_postLoop hrunning hloop
    apply h.shrink
    . intro id'
      dsimp only
      rw [live_removeSubs]
      split
      . exact List.nil_sublist _
      . exact hlooped.sublist id'
    . intro id' key hkey
      dsimp only at hkey
      rw [live_removeSubs] at hkey
      split at hkey
      . exact absurd hkey List.not_mem_nil
      . next hne =>
        apply hlooped.stays
        intro hmem
        -- A key is live in one session only.
        have hid := h.index_eq id key (hrunning.subset hmem)
        rw [h.index_eq id' key ((hlooped.sublist id').subset hkey)] at hid
        injection hid with hid
        exact hne hid
    . intro key hne
      by_cases hmem : key ∈ vec.map Prod.fst
      . exact absurd (hlooped.gone key hmem) hne
      . rw [← hlooped.stays key hmem]
        exact hne
    . exact hlooped.keySeq_eq

theorem exists_indexed (h : (Notify.machine W).Reachable s) : ∃ drawn, s.Indexed drawn := by
  apply Machine.inv_of_reachable (fun s => ∃ drawn, s.Indexed drawn) _ _ h
  . exact ⟨[], indexed_ctor⟩
  . rintro s e s' ⟨drawn, h⟩ hstep
    cases e with
    | subscribe id cb =>
      unfold Notify.machine Notify.step at hstep
      dsimp only at hstep
      cases hsub : s.subscribe id cb with
      | none =>
        rw [hsub] at hstep
        injection hstep with hstep
        exact ⟨drawn, hstep ▸ h⟩
      | some r =>
        obtain ⟨key, s''⟩ := r
        rw [hsub] at hstep
        injection hstep with hstep
        exact ⟨key :: drawn, hstep ▸ h.subscribed (subscribed hsub)⟩
    | unsubscribe key =>
      injection hstep with hstep
      exact ⟨drawn, hstep ▸ h.unsubscribe key⟩
    | post id w =>
      obtain ⟨p, hnotify, rfl⟩ := Option.map_eq_some_iff.mp hstep
      exact ⟨drawn, h.notify hnotify⟩

/-!
### Everyone is reached
-/

theorem reached_of_none (hsubs : s.subs id = none) :
    Reached s id ⟨0, [], s, w⟩ ↔ ∀ key, s.index key = some id → key ∈ s.live id := by
  have hlive : s.live id = [] := by
    unfold live
    rw [hsubs]
    rfl
  rw [hlive]
  constructor
  . exact fun hreached key hkey => absurd hkey (hreached.index_ne key)
  . intro hindex
    constructor
    . exact List.nodup_nil
    . exact fun t ht => absurd ht List.not_mem_nil
    . exact List.Pairwise.nil
    . intro key hkey
      rw [hlive] at hkey
      exact absurd hkey List.not_mem_nil
    . exact hsubs
    . exact fun key hkey => absurd (hindex key hkey) List.not_mem_nil

theorem reached_of_postLoop (h : s.Indexed drawn) {vec : List (Nat × CloseCallback W)}
    (hsubs : s.subs id = some vec) (hloop : postLoop id vec.length vec s w = some p) :
    Reached s id { p with subsClose := p.subsClose.removeSubs id }
      ↔ ∀ key, s.index key = some id → key ∈ s.live id := by
  have hlive : s.live id = vec.map Prod.fst := by
    unfold live
    rw [hsubs]
    rfl
  have hrunning := h.running hsubs
  have hlooped := looped_of_postLoop hrunning hloop
  rw [hlive]
  constructor
  . intro hreached key hkey
    by_contra hmem
    apply hreached.index_ne key
    rw [← hkey]
    exact hlooped.stays key hmem
  . intro hindex
    constructor
    . dsimp only
      rw [hlooped.key_eq]
      exact hrunning.nodup
    . intro t ht
      rw [hlive, ← hlooped.key_eq]
      exact List.mem_map_of_mem ht
    . exact hlooped.inTime
    . intro key hkey
      left
      rw [hlive, ← hlooped.key_eq] at hkey
      exact List.mem_map.mp hkey
    . apply Function.update_self
    . intro key hkey
      by_cases hmem : key ∈ vec.map Prod.fst
      . have hgone := hlooped.gone key hmem
        exact nomatch hgone.symm.trans hkey
      . apply hmem
        apply hindex
        rw [← hlooped.stays key hmem]
        exact hkey

theorem reached_iff (h : s.Indexed drawn) (hnotify : s.notify id w = some p) :
    Reached s id p ↔ ∀ key, s.index key = some id → key ∈ s.live id := by
  unfold SubsClose.notify at hnotify
  cases hsubs : s.subs id with
  | none =>
    rw [hsubs] at hnotify
    injection hnotify with hnotify
    rw [← hnotify]
    exact reached_of_none hsubs
  | some vec =>
    rw [hsubs] at hnotify
    obtain ⟨p, hloop, rfl⟩ := Option.map_eq_some_iff.mp hnotify
    exact reached_of_postLoop h hsubs hloop

theorem exists_notify_iff (h : s.Indexed drawn) :
    (∃ p, s.notify id w = some p) ↔ Quiet ((s.subs id).getD []) w := by
  unfold SubsClose.notify
  cases hsubs : s.subs id with
  | none => exact iff_of_true ⟨_, rfl⟩ trivial
  | some vec =>
    dsimp only
    rw [Option.getD_some, ← exists_postLoop_iff (h.running hsubs), ← Option.isSome_iff_exists,
      ← Option.isSome_iff_exists]
    apply Bool.eq_iff_iff.mp
    apply Option.isSome_map

/--
The end of a session reaches everyone exactly when no subscription to it has been removed before, and no
callback removes one that has not had its turn, its own among them.
-/
theorem notify_reached_iff (s : SubsClose (CloseCallback W)) (h : (Notify.machine W).Reachable s)
    (id : UInt32) (w : W) :
    (∃ p, s.notify id w = some p ∧ Reached s id p)
      ↔ (∀ key, s.index key = some id → key ∈ s.live id)
        ∧ Quiet ((s.subs id).getD []) w := by
  obtain ⟨drawn, hindexed⟩ := exists_indexed h
  rw [← exists_notify_iff hindexed]
  constructor
  . rintro ⟨p, hnotify, hreached⟩
    exact ⟨(reached_iff hindexed hnotify).mp hreached, p, hnotify⟩
  . rintro ⟨hindex, p, hnotify⟩
    exact ⟨p, hnotify, (reached_iff hindexed hnotify).mpr hindex⟩

def silent : CloseCallback Unit :=
  fun w => ([], w)

-- The second one to be called unsubscribes the first one, which has had its turn.
set_option maxRecDepth 8000 in
theorem exists_run_earlier :
    ∃ s, (Notify.machine Unit).run ctor [.subscribe 7 silent, .subscribe 7 fun w => ([1], w)] = some s
      ∧ s.subs 7 = some [(1, silent), (2, fun w => ([1], w))]
      ∧ s.index = Function.update (Function.update (fun _ => none) 1 (some 7)) 2 (some 7) :=
  ⟨_, rfl, rfl, rfl⟩

theorem notify_reached_iff_earlier :
    ∃ s, (Notify.machine Unit).run ctor [.subscribe 7 silent, .subscribe 7 fun w => ([1], w)] = some s
      ∧ s.live 7 = [1, 2] ∧ ∃ p, s.notify 7 () = some p ∧ Reached s 7 p := by
  obtain ⟨s, hrun, hsubs, hindex⟩ := exists_run_earlier
  have hlive : s.live 7 = [1, 2] := by
    unfold live
    rw [hsubs]
    rfl
  refine ⟨s, hrun, hlive, ?_⟩
  rw [notify_reached_iff s ⟨_, hrun⟩, hlive, hsubs, hindex]
  constructor
  . intro key hkey
    by_cases h2 : key = 2
    . simp [h2]
    . by_cases h1 : key = 1
      . simp [h1]
      . rw [Function.update_of_ne h2, Function.update_of_ne h1] at hkey
        exact absurd hkey.symm (Option.some_ne_none 7)
  . simp [Quiet, silent]
set_option maxRecDepth 8000 in
-- The callback drops the ref that it has been subscribed through.
theorem exists_not_reached :
    ∃ s, (Notify.machine Unit).run ctor [.subscribe 7 fun w => ([1], w)] = some s
      ∧ ¬∃ p, s.notify 7 () = some p ∧ Reached s 7 p := by
  refine ⟨_, rfl, ?_⟩
  rintro ⟨p, hp, -⟩
  exact nomatch hp

end SubsClose
end Lax
