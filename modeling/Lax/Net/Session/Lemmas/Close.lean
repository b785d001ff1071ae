import Lax.Net.Session.Lemmas.Outstanding

/-!
This module contains when a session is destroyed, and which interleavings destroy it twice or never.
-/

namespace Lax
namespace Session

def Pc.Executing : Pc → Prop
  | .requestSend true | .checkSend true | .transfer true | .startWrite true
  | .recvCompleted _ | .parsing | .requestRecv | .checkRecv | .startRead
  | .sendCompleted _ | .released _
  | .closing | .shutting | .checking | .destroying | .notifying => True
  | _ => False

-- `send` is at rest until it has claimed the write.
def Pc.AtRest : Pc → Prop
  | .idle | .sending _ | .appending _ | .requestSend false | .checkSend false => True
  | _ => False

-- between the test of `destroyed_` and the assignment to it
def Pc.Tested : Pc → Prop
  | .shutting | .checking | .destroying => True
  | _ => False

variable {Tid : Type}

-- The socket is closed and nothing is going on.
structure Quiet (s : State Tid) : Prop where
  isOpen : s.isOpen = false
  reading : s.reading = 0
  writes : s.writes = []
  threads : ∀ t, (s.threads t).AtRest

def ClosedOnce (s : State Tid) : Prop :=
  s.passed ≤ 1 ∧ s.notified ≤ 1 ∧ (Quiet s → s.passed = 1 ∧ s.notified = 1)

structure OrderlyAt (s : State Tid) (t : Tid) : Prop where
  -- Nobody else has tested `destroyed_` when `destroy` passes its check.
  check : s.threads t = .checking → s.sending = false → s.recving = false →
    ∀ t', t' ≠ t → ¬(s.threads t').Tested
  -- Nobody has passed the check without having set `destroyed_` when `close` tests it.
  test : s.threads t = .closing → s.destroyed = false → ∀ t', s.threads t' ≠ .destroying
  -- A handler that leaves a closed socket behind leaves it to somebody else.
  found : s.threads t = .requestRecv ∨ s.threads t = .requestSend true
      ∨ s.threads t = .checkSend true ∧ s.sendBuffer.size = 0 → s.isOpen = false →
    s.destroyed = true ∨ s.recving = true ∨ s.sending = true
      ∨ ∃ t', t' ≠ t ∧ (s.threads t').Executing

def Orderly (s : State Tid) : Event Tid → Prop
  | .next t _ => OrderlyAt s t
  | _ => True

/-!
### At most once
-/

def Pc.Closes : Pc → Prop
  | .shutting | .checking | .destroying | .notifying => True
  | _ => False

theorem tested_of_closes {pc : Pc} (h : pc.Closes) (hne : pc ≠ .notifying) : pc.Tested := by
  cases pc <;> first | exact h | exact absurd rfl hne

inductive Phase (s : State Tid) : Prop where
  | alive (hdestroyed : s.destroyed = false) (hpassed : s.passed = 0) (hnotified : s.notified = 0)
    (hno : ∀ t, s.threads t ≠ .destroying ∧ s.threads t ≠ .notifying)
  | passed (t : Tid) (hdestroyed : s.destroyed = false) (hpassed : s.passed = 1)
    (hnotified : s.notified = 0) (ht : s.threads t = .destroying)
    (hno : ∀ t', t' ≠ t → ¬(s.threads t').Closes)
  | destroyed (t : Tid) (hdestroyed : s.destroyed = true) (hpassed : s.passed = 1)
    (hnotified : s.notified = 0) (ht : s.threads t = .notifying)
    (hno : ∀ t', t' ≠ t → ¬(s.threads t').Closes)
  | notified (hdestroyed : s.destroyed = true) (hpassed : s.passed = 1) (hnotified : s.notified = 1)
    (hno : ∀ t, ¬(s.threads t).Closes)

variable [DecidableEq Tid] {length : Nat} {s s' : State Tid} {t : Tid} {e : Event Tid} {pc' : Pc}
  {base : State Tid}

omit [DecidableEq Tid] in
theorem Phase.congr (h : Phase s) (hdestroyed : s'.destroyed = s.destroyed)
    (hpassed : s'.passed = s.passed) (hnotified : s'.notified = s.notified)
    (hthreads : s'.threads = s.threads) : Phase s' := by
  cases h with
  | alive hd hp hn hno =>
    exact .alive (hdestroyed.trans hd) (hpassed.trans hp) (hnotified.trans hn) (hthreads ▸ hno)
  | passed t hd hp hn ht hno =>
    exact .passed t (hdestroyed.trans hd) (hpassed.trans hp) (hnotified.trans hn) (hthreads ▸ ht)
      (hthreads ▸ hno)
  | destroyed t hd hp hn ht hno =>
    exact .destroyed t (hdestroyed.trans hd) (hpassed.trans hp) (hnotified.trans hn) (hthreads ▸ ht)
      (hthreads ▸ hno)
  | notified hd hp hn hno =>
    exact .notified (hdestroyed.trans hd) (hpassed.trans hp) (hnotified.trans hn) (hthreads ▸ hno)

theorem closes_goto (hnew : ¬pc'.Closes) {t' : Tid} (ht' : ((s.goto t pc').threads t').Closes) :
    t' ≠ t ∧ (s.threads t').Closes :=
  (Threads.update_cases Pc.Closes ht').resolve_left fun h => hnew h.2

theorem Phase.goto (h : Phase s) (hold : ¬(s.threads t).Closes) (hnew : ¬pc'.Closes) :
    Phase (s.goto t pc') := by
  have hstays : ∀ t', (s.threads t').Closes → (s.goto t pc').threads t' = s.threads t' := by
    intro t' ht'
    refine goto_of_ne ?_ s pc'
    rintro rfl
    exact hold ht'
  cases h with
  | alive hdestroyed hpassed hnotified hno =>
    refine .alive hdestroyed hpassed hnotified fun t' => ⟨fun heq => ?_, fun heq => ?_⟩
    . have ht' := (closes_goto hnew (by rw [heq]; trivial)).2
      exact (hno t').1 ((hstays t' ht').symm.trans heq)
    . have ht' := (closes_goto hnew (by rw [heq]; trivial)).2
      exact (hno t').2 ((hstays t' ht').symm.trans heq)
  | passed t' hdestroyed hpassed hnotified ht' hno =>
    refine .passed t' hdestroyed hpassed hnotified ?_ fun t'' hne ht'' => ?_
    . exact (hstays t' (by rw [ht']; trivial)).trans ht'
    . exact hno t'' hne (closes_goto hnew ht'').2
  | destroyed t' hdestroyed hpassed hnotified ht' hno =>
    refine .destroyed t' hdestroyed hpassed hnotified ?_ fun t'' hne ht'' => ?_
    . exact (hstays t' (by rw [ht']; trivial)).trans ht'
    . exact hno t'' hne (closes_goto hnew ht'').2
  | notified hdestroyed hpassed hnotified hno =>
    exact .notified hdestroyed hpassed hnotified fun t' ht' => hno t' (closes_goto hnew ht').2

omit [DecidableEq Tid] in
-- Whoever has not passed the check yet is alone with others like it.
theorem Phase.eq_alive (h : Phase s)
    (halive : s.threads t = .shutting ∨ s.threads t = .checking
      ∨ s.destroyed = false ∧ ∀ t', s.threads t' ≠ .destroying) :
    s.destroyed = false ∧ s.passed = 0 ∧ s.notified = 0
      ∧ ∀ t', s.threads t' ≠ .destroying ∧ s.threads t' ≠ .notifying := by
  have hcloses : s.threads t = .shutting ∨ s.threads t = .checking →
      (s.threads t).Closes ∧ s.threads t ≠ .destroying ∧ s.threads t ≠ .notifying := by
    rintro (ht | ht) <;> rw [ht] <;> exact ⟨trivial, (nomatch ·), (nomatch ·)⟩
  rw [← or_assoc] at halive
  cases h with
  | alive hdestroyed hpassed hnotified hno => exact ⟨hdestroyed, hpassed, hnotified, hno⟩
  | passed t' hdestroyed hpassed hnotified ht' hno =>
    exfalso
    obtain ht | ⟨-, hnot⟩ := halive
    . obtain ⟨ht, hne, -⟩ := hcloses ht
      refine hno t ?_ ht
      rintro rfl
      exact hne ht'
    . exact hnot t' ht'
  | destroyed t' hdestroyed hpassed hnotified ht' hno =>
    exfalso
    obtain ht | ⟨hfalse, -⟩ := halive
    . obtain ⟨ht, -, hne⟩ := hcloses ht
      refine hno t ?_ ht
      rintro rfl
      exact hne ht'
    . cases hfalse.symm.trans hdestroyed
  | notified hdestroyed hpassed hnotified hno =>
    exfalso
    obtain ht | ⟨hfalse, -⟩ := halive
    . exact hno t (hcloses ht).1
    . cases hfalse.symm.trans hdestroyed

theorem phase_step (h : Phase s) (horderly : Orderly s e)
    (hmove : Move length s t e (s.threads t) pc' base) : Phase (base.goto t pc') := by
  have hgoto := @Phase.goto Tid _ s t pc' h
  have halive := @Phase.eq_alive Tid s t h
  generalize hpc : s.threads t = pc at hmove
  rw [hpc] at hgoto halive
  have hother : ∀ {pc'}, (pc' ≠ .destroying ∧ pc' ≠ .notifying) →
      (∀ t', s.threads t' ≠ .destroying ∧ s.threads t' ≠ .notifying) →
      ∀ t', (s.goto t pc').threads t' ≠ .destroying ∧ (s.goto t pc').threads t' ≠ .notifying := by
    intro pc' hpc' hno
    exact (Function.forall_update_iff s.threads fun _ pc => pc ≠ .destroying ∧ pc ≠ .notifying).mpr
      ⟨hpc', fun t' _ => hno t'⟩
  cases hmove with
  | test hdestroyed =>
    have hnot := horderly.test hpc hdestroyed
    obtain ⟨hdestroyed, hpassed, hnotified, hno⟩ := halive (Or.inr (Or.inr ⟨hdestroyed, hnot⟩))
    exact .alive hdestroyed hpassed hnotified (hother ⟨(nomatch ·), (nomatch ·)⟩ hno)
  | shut =>
    obtain ⟨hdestroyed, hpassed, hnotified, hno⟩ := halive (Or.inl rfl)
    exact .alive hdestroyed hpassed hnotified (hother ⟨(nomatch ·), (nomatch ·)⟩ hno)
  | outstanding hbusy =>
    obtain ⟨hdestroyed, hpassed, hnotified, hno⟩ := halive (Or.inr (Or.inl rfl))
    exact .alive hdestroyed hpassed hnotified (hother ⟨(nomatch ·), (nomatch ·)⟩ hno)
  | pass hsending hrecving =>
    obtain ⟨hdestroyed, hpassed, hnotified, hno⟩ := halive (Or.inr (Or.inl rfl))
    have htested := horderly.check hpc hsending hrecving
    refine .passed t hdestroyed (congrArg Nat.succ hpassed) hnotified (goto_self ..) ?_
    intro t' hne ht'
    rw [goto_of_ne hne] at ht'
    exact htested t' hne (tested_of_closes ht' (hno t').2)
  | destroy =>
    have hcloses : (s.threads t).Closes := by
      rw [hpc]
      trivial
    cases h with
    | alive _ _ _ hno => exact absurd hpc (hno t).1
    | passed t' hdestroyed hpassed hnotified ht' hno =>
      have heq : t = t' := by_contra fun hne => hno t hne hcloses
      subst heq
      refine .destroyed t rfl hpassed hnotified (goto_self ..) ?_
      intro t' hne ht'
      rw [goto_of_ne hne] at ht'
      exact hno t' hne ht'
    | destroyed t' hdestroyed hpassed hnotified ht' hno =>
      have heq : t = t' := by_contra fun hne => hno t hne hcloses
      subst heq
      cases hpc.symm.trans ht'
    | notified _ _ _ hno => exact absurd hcloses (hno t)
  | notify =>
    have hcloses : (s.threads t).Closes := by
      rw [hpc]
      trivial
    cases h with
    | alive _ _ _ hno => exact absurd hpc (hno t).2
    | passed t' hdestroyed hpassed hnotified ht' hno =>
      have heq : t = t' := by_contra fun hne => hno t hne hcloses
      subst heq
      cases hpc.symm.trans ht'
    | destroyed t' hdestroyed hpassed hnotified ht' hno =>
      have heq : t = t' := by_contra fun hne => hno t hne hcloses
      subst heq
      refine .notified hdestroyed hpassed (congrArg Nat.succ hnotified) ?_
      intro t' ht'
      obtain ⟨hne, ht'⟩ := closes_goto (show ¬Pc.idle.Closes from id) ht'
      exact hno t' hne ht'
    | notified _ _ _ hno => exact absurd hcloses (hno t)
  | _ => exact (hgoto id id).congr rfl rfl rfl rfl

/-!
### At least once
-/

-- There is somebody to destroy the session once its socket is closed.
def Covered (s : State Tid) : Prop :=
  s.isOpen = false →
    s.destroyed = true ∨ s.recving = true ∨ s.sending = true ∨ ∃ t, (s.threads t).Executing

theorem Covered.goto (h : Covered s) (hold : ¬(s.threads t).Executing) : Covered (s.goto t pc') := by
  intro hclosed
  refine (h hclosed).imp_right (Or.imp_right (Or.imp_right ?_))
  exact Threads.exists_update Pc.Executing fun ht => absurd ht hold

theorem OrderlyAt.covered (h : OrderlyAt s t)
    (hfound : s.threads t = .requestRecv ∨ s.threads t = .requestSend true
      ∨ s.threads t = .checkSend true ∧ s.sendBuffer.size = 0) : Covered (s.goto t pc') := by
  intro hclosed
  refine (h.found hfound hclosed).imp_right (Or.imp_right (Or.imp_right ?_))
  rintro ⟨t', hne, ht'⟩
  exact ⟨t', by rw [goto_of_ne hne]; exact ht'⟩

theorem covered_step (h : Covered s) (hphase : Phase s) (houtstanding : Outstanding s)
    (horderly : Orderly s e) (hmove : Move length s t e (s.threads t) pc' base) :
    Covered (base.goto t pc') := by
  have hself : pc'.Executing → ∀ base : State Tid, Covered (base.goto t pc') :=
    fun hpc' base _ => Or.inr (Or.inr (Or.inr ⟨t, by rw [goto_self]; exact hpc'⟩))
  have hsending : ∀ base : State Tid, base.sending = true → Covered (base.goto t pc') :=
    fun _ hsending _ => Or.inr (Or.inr (Or.inl hsending))
  have hrecving : ∀ base : State Tid, base.recving = true → Covered (base.goto t pc') :=
    fun _ hrecving _ => Or.inr (Or.inl hrecving)
  have hkeep := @Covered.goto Tid _ s t pc' h
  have hsends := @Turn.unique _ _ _ _ _ _ t houtstanding.send
  have hrecvs := @Turn.unique _ _ _ _ _ _ t houtstanding.recv
  generalize hpc : s.threads t = pc at hmove
  rw [hpc] at hkeep hsends hrecvs
  cases hmove with
  | close | readDone | writeDone | recvFailed | recvDone | parsed | notParsed | requestRecv
  | claimRecv | release | sendFailed | sendDone | test | shut | pass | destroy =>
    exact hself trivial _
  | send | allow | refuse => exact hkeep id
  | append => exact hkeep id
  | @requestSend ok handler hopen =>
    cases handler with
    | true => exact hself trivial _
    | false => exact hkeep id
  | @sendClosed ok handler hclosed =>
    cases handler with
    | true => exact OrderlyAt.covered horderly (Or.inr (Or.inl hpc))
    | false => exact hkeep id
  | alreadySending hbusy => exact hsending _ hbusy
  | @noData ok handler hbusy hsize =>
    cases handler with
    | true => exact OrderlyAt.covered horderly (Or.inr (Or.inr ⟨hpc, hsize⟩))
    | false => exact hkeep id
  | claimSend => exact hsending _ rfl
  | transfer | startWrite => exact hsending _ (hsends trivial).1
  | recvClosed => exact OrderlyAt.covered horderly (Or.inl hpc)
  | alreadyRecving hbusy => exact hrecving _ hbusy
  | startRead => exact hrecving _ (hrecvs trivial).1
  | alreadyDestroyed hdestroyed => exact fun _ => Or.inl hdestroyed
  | outstanding hbusy =>
    obtain hbusy | hbusy := hbusy
    . exact hsending _ hbusy
    . exact hrecving _ hbusy
  | notify =>
    cases hphase with
    | alive _ _ _ hno => exact absurd hpc (hno t).2
    | passed t' _ _ _ ht' hno =>
      have heq : t = t' := by_contra fun hne => hno t hne (by rw [hpc]; trivial)
      subst heq
      cases hpc.symm.trans ht'
    | destroyed _ hdestroyed => exact fun _ => Or.inl hdestroyed
    | notified hdestroyed => exact fun _ => Or.inl hdestroyed

structure Closing (s : State Tid) : Prop where
  phase : Phase s
  covered : Covered s
  outstanding : Outstanding s

theorem closing_init : Closing (@machine Tid _ length).init where
  phase := .alive rfl rfl rfl fun _ => ⟨(nomatch ·), (nomatch ·)⟩
  covered := fun h => nomatch h
  outstanding := outstanding_init

theorem closing_step (h : Closing s) (horderly : Orderly s e) (hstep : step length s e = some s') :
    Closing s' := by
  have houtstanding := outstanding_step h.outstanding hstep
  obtain ⟨t, pc', base, hmove, rfl⟩ | ⟨i, n, bytes, -, -, rfl⟩ := moved_of_step hstep
  . exact ⟨phase_step h.phase horderly hmove,
      covered_step h.covered h.phase h.outstanding horderly hmove, houtstanding⟩
  . exact ⟨h.phase.congr rfl rfl rfl rfl, h.covered, houtstanding⟩

structure Pc.Resting (pc : Pc) : Prop where
  recvs : ¬pc.Recvs
  sends : ¬pc.Sends
  executing : ¬pc.Executing
  notifying : pc ≠ .notifying

theorem Pc.AtRest.resting {pc : Pc} (h : pc.AtRest) : pc.Resting := by
  cases pc with
  | idle | sending | appending => exact ⟨id, id, id, (nomatch ·)⟩
  | requestSend handler | checkSend handler =>
    cases handler with
    | true => cases h
    | false => exact ⟨id, id, id, (nomatch ·)⟩
  | _ => cases h

omit [DecidableEq Tid] in
theorem Closing.destroyed_of_quiet (h : Closing s) (hquiet : Quiet s) : s.destroyed = true := by
  have hrest := fun t => (hquiet.threads t).resting
  have hrecv := h.outstanding.recv
  have hsend := h.outstanding.send
  rw [hquiet.reading] at hrecv
  rw [hquiet.writes] at hsend
  obtain hdestroyed | hrecving | hsending | ⟨t, ht⟩ := h.covered hquiet.isOpen
  . exact hdestroyed
  . cases (hrecv.free_of_not_owns fun t => (hrest t).recvs).symm.trans hrecving
  . cases (hsend.free_of_not_owns fun t => (hrest t).sends).symm.trans hsending
  . exact absurd ht (hrest t).executing

omit [DecidableEq Tid] in
theorem Closing.closedOnce (h : Closing s) : ClosedOnce s := by
  cases h.phase with
  | alive hdestroyed hpassed hnotified =>
    refine ⟨by omega, by omega, fun hquiet => ?_⟩
    cases hdestroyed.symm.trans (h.destroyed_of_quiet hquiet)
  | passed _ hdestroyed hpassed hnotified =>
    refine ⟨by omega, by omega, fun hquiet => ?_⟩
    cases hdestroyed.symm.trans (h.destroyed_of_quiet hquiet)
  | destroyed t _ hpassed hnotified ht =>
    refine ⟨by omega, by omega, fun hquiet => ?_⟩
    exact absurd ht (hquiet.threads t).resting.notifying
  | notified _ hpassed hnotified =>
    exact ⟨Nat.le_of_eq hpassed, Nat.le_of_eq hnotified, fun _ => ⟨hpassed, hnotified⟩⟩

/--
Whoever closes, and however often, the session is destroyed and its end notified once.
-/
theorem closedOnce_of_orderly (length : Nat) (s : State Tid) (es : List (Event Tid))
    (hrun : (machine length).run (machine length).init es = some s)
    (horderly : (machine length).Along Orderly (machine length).init es) : ClosedOnce s := by
  refine Closing.closedOnce (Machine.inv_of_along Closing ?_ hrun horderly closing_init)
  exact fun _ _ _ h horderly hstep => closing_step h horderly hstep

theorem orderlyAt_of_alone {s : State Unit}
    (hno : ¬(s.threads () = .requestRecv ∨ s.threads () = .requestSend true
      ∨ s.threads () = .checkSend true ∧ s.sendBuffer.size = 0)) : OrderlyAt s () where
  check := fun _ _ _ _ hne => absurd rfl hne
  test := fun h _ _ h' => nomatch h.symm.trans h'
  found := fun hfound => absurd hfound hno

def failing : List (Event Unit) :=
  .readDone () false :: List.replicate 6 (.next () true)

theorem closedOnce_of_orderly_failing :
    ∃ s, (machine 1).run (machine 1).init failing = some s ∧ ClosedOnce s := by
  refine ⟨_, rfl, closedOnce_of_orderly 1 _ failing rfl ?_⟩
  refine Machine.along_cons trivial rfl ?_
  repeat' first
    | exact trivial
    | refine Machine.along_cons (orderlyAt_of_alone ?_) rfl ?_
    | rintro (h | h | ⟨h, -⟩) <;> cases h

-- The handler of a failed read and `close` both pass the check before either of them has set
-- `destroyed_`.
def closingTwice : List (Event Bool) :=
  [.readDone false false, .next false true, .next false true, .close true, .next true true]
    ++ [.next false true, .next false true, .next true true, .next true true]
    ++ [.next false true, .next false true, .next true true, .next true true]

-- The read has succeeded, but before its handler runs `close` leaves the session to it.
def closingNever : List (Event Bool) :=
  [.readDone false true, .close true, .next true true, .next true true, .next true true]
    ++ [.next false true, .next false true, .next false true]

theorem not_closedOnce :
    (∃ s, (machine 1).run (machine 1).init closingTwice = some s ∧ s.notified = 2)
      ∧ ∃ s, (machine 1).run (machine 1).init closingNever = some s ∧ Quiet s ∧ s.notified = 0 := by
  refine ⟨⟨_, rfl, rfl⟩, _, rfl, ⟨rfl, rfl, rfl, ?_⟩, rfl⟩
  rintro (_ | _) <;> trivial

end Session
end Lax
