import Lax.Channel.Lemmas.Visits

/-!
This module contains when nothing of a request is started any more after it has been cancelled.
-/

namespace Lax
namespace SharedTimer

open Timer (Req again)

variable {ω : Type} {t t' t'' : SharedTimer ω} {p id : Nat} {r : Req (TimerAction ω)}
  {pq : KeyedQueue Nat ℚ} {now : ℚ} {i : Nat} {vs : List (Visit ω)} {log : List Log}

-- No action of an object is started after it has been cancelled.
def Final (log : List Log) : Prop :=
  log.Pairwise fun entry entry' => ∀ p, entry = .cancelled p → entry' ≠ .started p

-- The script cancels this id, and there is such a request.
def Cancels (id : Nat) (t : SharedTimer ω) : TimerScript ω → Prop
  | .ret _ => False
  | .cancel id' next =>
    id' = id ∧ t.has id' = true ∨ (t.cancel id').2.Cancels id (next (t.cancel id').1)
  | .has id' next => t.Cancels id (next (t.has id'))

-- No action cancels its own request, the last one apart.
def OnlyLastCancels (t : SharedTimer ω) (p id : Nat) : List (TimerAction ω) → Prop
  | [] => True
  | act :: acts =>
    let t := t.note (.started p)
    (acts ≠ [] → ¬t.Cancels id (act id t.world))
      ∧ (t.runScript (act id t.world)).OnlyLastCancels p id acts

def lastRun {α : Type} (now : ℚ) (r : Req α) : Req α :=
  { r with lastRunTick := now }

def Visit.OnlyLastCancels (v : Visit ω) (now : ℚ) : Prop :=
  let t := v.timer.modify v.p (lastRun now)
  t.OnlyLastCancels v.p v.req.id v.req.actions

/-!
### The log
-/

theorem final_started : Final (log ++ [.started p]) ↔ Final log ∧ .cancelled p ∉ log := by
  unfold Final
  rw [List.pairwise_append]
  constructor
  . rintro ⟨hlog, -, hlast⟩
    refine ⟨hlog, ?_⟩
    intro hp
    exact hlast _ hp _ (List.mem_singleton_self _) p rfl rfl
  . rintro ⟨hlog, hp⟩
    refine ⟨hlog, List.pairwise_singleton _ _, ?_⟩
    rintro _ hentry entry' hentry' q rfl rfl
    cases List.mem_singleton.mp hentry'
    exact hp hentry

theorem final_cancelled : Final (log ++ [.cancelled p]) ↔ Final log := by
  unfold Final
  rw [List.pairwise_append]
  constructor
  . exact And.left
  . intro hlog
    refine ⟨hlog, List.pairwise_singleton _ _, ?_⟩
    intro entry _ entry' hentry' q _
    cases List.mem_singleton.mp hentry'
    exact nofun

theorem Final.of_prefix {log' : List Log} (h : Final log') (hlog : log <+: log') : Final log :=
  h.sublist hlog.sublist

theorem final_cancel (t : SharedTimer ω) (id : Nat) : Final (t.cancel id).2.log ↔ Final t.log := by
  rw [log_cancel]
  cases t.find id with
  | none => rw [Option.map_none, Option.toList_none, List.append_nil]
  | some p => exact final_cancelled

theorem final_runScript (script : TimerScript ω) (t : SharedTimer ω) :
    Final (t.runScript script).log ↔ Final t.log := by
  induction script generalizing t with
  | ret w => rfl
  | cancel id next ih => exact (ih _ _).trans (final_cancel t id)
  | has id next ih => exact ih _ t

/-!
### Running a request
-/

theorem find_eq_iff {held : List (Nat × Nat)} (h : Good t held) {id' : Nat}
    (hobj : t.objs p = some r) :
    t.find id' = some p ↔ id' = r.id ∧ t.has id' = true := by
  unfold has
  constructor
  . intro hfind
    obtain ⟨-, r', hobj', hid, -⟩ := h.tables.known id' p (mem_of_find hfind)
    rw [hobj] at hobj'
    cases hobj'
    rw [hfind]
    exact ⟨hid.symm, rfl⟩
  . rintro ⟨rfl, hhas⟩
    obtain ⟨q, hfind⟩ := Option.isSome_iff_exists.mp hhas
    obtain ⟨-, r', hobj', hid, -⟩ := h.tables.known r.id q (mem_of_find hfind)
    rw [hfind, h.objs.ids q p r' r hobj' hobj hid]

theorem cancelled_mem_runScript (h : Good t [(p, id)]) (script : TimerScript ω) :
    .cancelled p ∈ (t.runScript script).log ↔ .cancelled p ∈ t.log ∨ t.Cancels id script := by
  induction script generalizing t with
  | ret w => exact (or_iff_left not_false).symm
  | cancel id' next ih =>
    obtain ⟨r, hobj, rfl⟩ := h.exists_held
    unfold runScript Cancels
    dsimp only
    rw [ih _ (h.cancel id'), log_cancel, List.mem_append, or_assoc, ← find_eq_iff h hobj]
    simp
  | has id' next ih =>
    unfold runScript Cancels
    exact ih _ h

theorem not_final_runActions (h : Good t [(p, id)]) (hp : .cancelled p ∈ t.log)
    {acts : List (TimerAction ω)} (hacts : acts ≠ []) : ¬Final (t.runActions p id acts).log := by
  cases acts with
  | nil => exact absurd rfl hacts
  | cons act acts =>
    have hstarted := h.note (.started p)
    have hscript := Follows.runScript hstarted (act id t.world)
    have hactions := Follows.runActions (hstarted.runScript (act id t.world)) p id acts
    intro hfinal
    have hlog := hfinal.of_prefix (hscript.trans hactions).log
    exact (final_started.mp hlog).2 hp

theorem final_runActions (h : Good t [(p, id)]) (hp : .cancelled p ∉ t.log)
    (acts : List (TimerAction ω)) :
    Final (t.runActions p id acts).log ↔ Final t.log ∧ t.OnlyLastCancels p id acts := by
  induction acts generalizing t with
  | nil => exact (and_iff_left trivial).symm
  | cons act acts ih =>
    have hstarted := h.note (.started p)
    have hfinal : Final ((t.note (.started p)).runScript (act id t.world)).log ↔ Final t.log :=
      (final_runScript _ _).trans (final_started.trans (and_iff_left hp))
    have hcancelled : .cancelled p ∈ ((t.note (.started p)).runScript (act id t.world)).log
        ↔ (t.note (.started p)).Cancels id (act id t.world) := by
      rw [cancelled_mem_runScript hstarted, or_iff_right]
      simpa [note] using hp
    unfold runActions OnlyLastCancels
    by_cases hcancels : (t.note (.started p)).Cancels id (act id t.world)
    . by_cases hacts : acts = []
      . subst hacts
        apply hfinal.trans
        apply (and_iff_left _).symm
        exact ⟨fun hne => absurd rfl hne, trivial⟩
      . apply iff_of_false
        . exact not_final_runActions (hstarted.runScript _) (hcancelled.mpr hcancels) hacts
        . rintro ⟨-, honly, -⟩
          exact honly hacts hcancels
    . rw [ih (hstarted.runScript _) (hcancelled.not.mpr hcancels), hfinal]
      apply and_congr_right
      intro _
      exact (and_iff_right fun _ => hcancels).symm

theorem final_runAt (h : Good t [(p, r.id)]) (hp : .cancelled p ∉ t.log) (now : ℚ) :
    Final (t.runAt now p r).log ↔ Final t.log ∧ Visit.OnlyLastCancels ⟨p, r, t⟩ now := by
  exact final_runActions (h.lastRunTick now p) hp r.actions

/-!
### Updates
-/

-- An object that has been cancelled is marked, or gone.
def Dead (t : SharedTimer ω) : Prop :=
  ∀ p, .cancelled p ∈ t.log → p < t.fresh ∧ ∀ r, t.objs p = some r → r.cancel = true

theorem Dead.follows (h : Dead t) (hfollows : Follows t t') : Dead t' := by
  intro p hp
  rw [hfollows.fresh_eq]
  obtain hp | hdead := hfollows.dead p hp
  . obtain ⟨hlt, hdead⟩ := h p hp
    refine ⟨hlt, ?_⟩
    intro r' hobj
    obtain ⟨r, hobj', hsame⟩ := hfollows.objs p r' hobj
    exact hsame.cancel (hdead r hobj')
  . exact hdead

theorem Dead.later (h : Dead t) (now : ℚ) (p : Nat) : Dead (t.later now p) := by
  intro q hq
  obtain ⟨hlt, hdead⟩ := h q hq
  refine ⟨hlt, ?_⟩
  intro r' hobj
  unfold SharedTimer.later at hobj
  by_cases heq : q = p
  . subst heq
    rw [objs_modify_self] at hobj
    obtain ⟨r, hobj', rfl⟩ := Option.map_eq_some_iff.mp hobj
    exact hdead r hobj'
  . rw [objs_modify_of_ne t heq] at hobj
    exact hdead r' hobj

theorem Dead.not_mem (h : Dead t) (hobj : t.objs p = some r) (hcancel : r.cancel = false) :
    .cancelled p ∉ t.log := by
  intro hp
  rw [(h p hp).2 r hobj] at hcancel
  contradiction

theorem Dead.popped (h : Dead t) (pq : KeyedQueue Nat ℚ) (e : Option Nat) (i : Nat) :
    Dead ((t.assign e).pop pq i) := by
  have hassign := h.follows (Follows.assign t e)
  exact hassign

-- What an update comes to, and when no action is started that has been cancelled.
structure Updated (t : SharedTimer ω) (vs : List (Visit ω)) (now : ℚ) (t' : SharedTimer ω) : Prop where
  good : Good t' []
  dead : Dead t'
  final : Final t'.log ↔ Final t.log ∧ ∀ v ∈ vs, v.OnlyLastCancels now

theorem Updated.cons {v : Visit ω} (h : Updated t' vs now t'')
    (hfinal : Final t'.log ↔ Final t.log ∧ v.OnlyLastCancels now) : Updated t (v :: vs) now t'' := by
  refine ⟨h.good, h.dead, ?_⟩
  rw [h.final, hfinal, and_assoc, List.forall_mem_cons]

theorem final_popped (pq : KeyedQueue Nat ℚ) (t : SharedTimer ω) (e : Option Nat) (i : Nat) :
    Final ((t.assign e).pop pq i).log ↔ Final t.log := by
  have hlog : ((t.assign e).pop pq i).log = t.log := log_assign t e
  rw [hlog]

-- The request that has come out of the queue is run.
theorem final_visit (pq : KeyedQueue Nat ℚ) (hgood : Good t []) (hdead : Dead t)
    (htop : t.top i = some p) (hobj : (t.assign (some p)).objs p = some r)
    (hcancel : r.cancel = false) (now : ℚ) :
    Final (((t.assign (some p)).pop pq i).runAt now p r).log
      ↔ Final t.log ∧ Visit.OnlyLastCancels ⟨p, r, (t.assign (some p)).pop pq i⟩ now := by
  have hpopped := hdead.popped pq (some p) i
  rw [final_runAt (hgood.popped htop hobj) (hpopped.not_mem hobj hcancel), final_popped]

theorem updated_of_loop (h : Loop pq now i t vs t') (hgood : Good t []) (hdead : Dead t) :
    Updated t vs now t' := by
  induction h with
  | empty htop =>
    refine ⟨hgood.assign none, hdead.follows (Follows.assign _ _), ?_⟩
    simp
  | gone htop hobj =>
    refine ⟨hgood.assign _, hdead.follows (Follows.assign _ _), ?_⟩
    simp
  | cancelled htop hobj hcancel hrest ih =>
    have hupdated := ih ((hgood.popped htop hobj).drop hobj hcancel) (hdead.popped pq _ _)
    refine ⟨hupdated.good, hupdated.dead, ?_⟩
    rw [hupdated.final, final_popped]
  | @again t t' vs p r htop hobj hdue hcancel hagain hrest ih =>
    have hpopped : Good ((t.assign (some p)).pop pq i) [(p, r.id)] := hgood.popped htop hobj
    have hran := (hdead.popped pq (some p) i).follows (Follows.runAt hpopped now p r)
    have hlater := (hpopped.runAt now p r).later now
    have hfinal := final_visit pq hgood hdead htop hobj hcancel now
    exact (ih (hlater.push (lt_length_of_runAt htop now r)) (hran.later now p)).cons hfinal
  | @ended t t' vs p r htop hobj hdue hcancel hagain hrest ih =>
    have hpopped : Good ((t.assign (some p)).pop pq i) [(p, r.id)] := hgood.popped htop hobj
    have hran := (hdead.popped pq (some p) i).follows (Follows.runAt hpopped now p r)
    have hfinal := final_visit pq hgood hdead htop hobj hcancel now
    rw [← log_removeEndReq _ r.id] at hfinal
    have hremoved := hran.follows (Follows.removeEndReq _ r.id)
    exact (ih (hpopped.runAt now p r).removeEndReq hremoved).cons hfinal
  | notDue htop hobj hdue =>
    refine ⟨(hgood.assign _).assign _, ?_, ?_⟩
    . exact (hdead.follows (Follows.assign _ _)).follows (Follows.assign _ _)
    . simp

theorem Updated.append {vs' : List (Visit ω)} (h : Updated t vs now t')
    (h' : Updated t' vs' now t'') : Updated t (vs ++ vs') now t'' := by
  refine ⟨h'.good, h'.dead, ?_⟩
  rw [h'.final, h.final, and_assoc, List.forall_mem_append]

theorem updated_of_loops {is : List Nat} (h : Loops pq now is t vs t') (hgood : Good t [])
    (hdead : Dead t) : Updated t vs now t' := by
  induction h with
  | nil =>
    refine ⟨hgood, hdead, ?_⟩
    simp
  | skip hrest ih => exact ih hgood hdead
  | slot hloop hrest ih =>
    have hupdated := updated_of_loop hloop (hgood.looked now _) hdead
    have hrest := hupdated.append (ih hupdated.good hupdated.dead)
    exact ⟨hrest.good, hrest.dead, hrest.final⟩

theorem updated (hgood : Good t []) (hdead : Dead t) :
    Updated t (t.visits pq now) now (t.update pq now) :=
  updated_of_loops (loops_update pq now t) hgood hdead

/-!
### Runs
-/

-- What is run in this step cancels itself with its last action at most.
def OnlyLastCancelsAt (pq : KeyedQueue Nat ℚ) (t : SharedTimer ω) : Event ω → Prop
  | .update now => ∀ v ∈ t.visits pq now, v.OnlyLastCancels now
  | _ => True

theorem Dead.insert (h : Dead t) (r : Req (TimerAction ω)) (seq : Sequence) :
    Dead {
      t with
      objs := Function.update t.objs t.fresh (some r)
      fresh := t.fresh + 1
      seq := seq
    } := by
  intro p hp
  obtain ⟨hlt, hdead⟩ := h p hp
  refine ⟨Nat.lt_succ_of_lt hlt, ?_⟩
  dsimp only
  rw [Function.update_of_ne (Nat.ne_of_lt hlt)]
  exact hdead

theorem Dead.set (h : Dead t) (hidle : Idle t) (pq : KeyedQueue Nat ℚ) (interval duration : ℚ)
    (repeats : Bool) (after tick tick' : ℚ) :
    Dead (t.set pq interval duration repeats after tick tick').2 := by
  obtain ⟨fi, hset | ⟨id, seq, -, hset⟩⟩ :=
    set_cases hidle pq interval duration repeats after tick tick'
  . rw [hset]
    exact h
  . rw [hset]
    apply Dead.follows _ (Follows.collect _ _)
    have hinsert := h.insert (Req.ctor id interval duration after repeats tick tick') seq
    exact hinsert

theorem dead_step {w : ω} {e : Event ω} (hidle : Idle t) (hdead : Dead t)
    (hstep : (machine pq w).step t e = some t') : Dead t' := by
  cases e with
  | set interval duration repeats after tick tick' =>
    cases hstep
    apply hdead.set hidle
  | add id act =>
    cases hstep
    unfold SharedTimer.add
    split
    . exact hdead
    . next p hfind =>
      apply hdead.follows
      apply Follows.modify
      exact fun _ => ⟨rfl, rfl, rfl, rfl, fun hcancel => hcancel⟩
  | cancel id =>
    cases hstep
    exact hdead.follows (Follows.cancel hidle.good id)
  | update now =>
    cases hstep
    exact (updated hidle.good hdead).dead
  | outside w =>
    cases hstep
    exact hdead

theorem log_set (hidle : Idle t) (pq : KeyedQueue Nat ℚ) (interval duration : ℚ) (repeats : Bool)
    (after tick tick' : ℚ) : (t.set pq interval duration repeats after tick tick').2.log = t.log := by
  obtain ⟨fi, hset | ⟨id, seq, -, hset⟩⟩ :=
    set_cases hidle pq interval duration repeats after tick tick'
  . rw [hset]
  . rw [hset]
    apply log_collect

theorem final_step_iff {w : ω} {e : Event ω} (hidle : Idle t) (hdead : Dead t) (hfinal : Final t.log)
    (hstep : (machine pq w).step t e = some t') : Final t'.log ↔ OnlyLastCancelsAt pq t e := by
  cases e with
  | set interval duration repeats after tick tick' =>
    cases hstep
    rw [log_set hidle]
    exact iff_of_true hfinal trivial
  | add id act =>
    cases hstep
    apply iff_of_true _ trivial
    unfold SharedTimer.add
    split
    . exact hfinal
    . exact hfinal
  | cancel id =>
    cases hstep
    rw [final_cancel]
    exact iff_of_true hfinal trivial
  | update now =>
    cases hstep
    rw [(updated hidle.good hdead).final]
    exact and_iff_right hfinal
  | outside w =>
    cases hstep
    exact iff_of_true hfinal trivial

theorem dead_ctor (w : ω) : Dead (ctor w) := by
  intro p hp
  cases hp

/--
No action of a request is started after it has been cancelled, if and only if no action cancels its own
request, the last one of the request apart.
-/
theorem final_iff_onlyLastCancels (pq : KeyedQueue Nat ℚ) (w : ω) (es : List (Event ω)) :
    (machine pq w).Along (fun t e => ∀ t', (machine pq w).step t e = some t' → Final t'.log)
        (machine pq w).init es
      ↔
    (machine pq w).Along (OnlyLastCancelsAt pq) (machine pq w).init es := by
  apply Machine.along_congr_of fun t => Idle t ∧ Dead t ∧ Final t.log
  . intro t e t' ⟨hidle, hdead, hfinal⟩ honly hstep
    refine ⟨idle_step hidle hstep, dead_step hidle hdead hstep, ?_⟩
    exact (final_step_iff hidle hdead hfinal hstep).mpr honly
  . intro t e ⟨hidle, hdead, hfinal⟩
    obtain ⟨t', hstep⟩ := exists_step pq w t e
    constructor
    . intro h
      exact (final_step_iff hidle hdead hfinal hstep).mp (h t' hstep)
    . intro h t' hstep
      exact (final_step_iff hidle hdead hfinal hstep).mpr h
  . exact ⟨idle_ctor w, dead_ctor w, List.Pairwise.nil⟩

/-!
### A request that cancels itself
-/

def cancelSelf : TimerAction Unit :=
  fun id _ => .cancel id fun _ => .ret ()

def nothing : TimerAction Unit :=
  fun _ _ => .ret ()

def selfCancelling : Req (TimerAction Unit) :=
  ((Req.ctor 1 (1 / 50) 0 0 false 0 0).add cancelSelf).add nothing

-- What the loop does with the request, and with the queue that is empty then.
theorem log_of_loop {seq : Sequence} {vs : List (Visit Unit)} {t' : SharedTimer Unit}
    (h : Loop KeyedQueue.sorted 1 0 (first selfCancelling 1 seq) vs t') :
    t'.log = [.started 0, .cancelled 0, .started 0] := by
  obtain ⟨_, -, hagain, -⟩ | ⟨_, -, -, -, hrest⟩ | ⟨hdue, -⟩ := h.of_live rfl rfl rfl
  . norm_num [again, selfCancelling, Req.add, Req.ctor] at hagain
  . obtain ⟨-, rfl⟩ := hrest.of_empty rfl
    rw [log_assign, log_removeEndReq]
    rfl
  . norm_num [selfCancelling, Req.add, Req.ctor, Timer.minInterval] at hdue

-- The second action is started after the first one has cancelled the request.
theorem exists_not_final :
    ∃ t, (machine KeyedQueue.sorted ()).run (ctor ()) [
        .set (1 / 50) 0 false 0 0 0,
        .add 1 cancelSelf,
        .add 1 nothing,
        .update 1
      ] = some t
      ∧ t.log = [.started 0, .cancelled 0, .started 0] ∧ ¬Final t.log := by
  obtain ⟨seq, hset⟩ := set_ctor 0 false
  have hrun : (machine KeyedQueue.sorted ()).run (ctor ()) [
        .set (1 / 50) 0 false 0 0 0,
        .add 1 cancelSelf,
        .add 1 nothing,
        .update 1
      ] = some (((((ctor ()).set KeyedQueue.sorted (1 / 50) 0 false 0 0 0).2.add 1 cancelSelf).2.add
        1 nothing).2.update KeyedQueue.sorted 1) := rfl
  have hlog := log_of_loop (loop_update_first selfCancelling seq)
  rw [hset, add_first, add_first] at hrun
  refine ⟨_, hrun, hlog, ?_⟩
  intro hfinal
  have hnot : Final [.started 0, .cancelled 0, .started 0] := hlog ▸ hfinal
  exact (List.pairwise_cons.mp (List.pairwise_cons.mp hnot).2).1 _ List.mem_cons_self 0 rfl rfl

end SharedTimer
end Lax
