import Lax.Foundation.Threads
import Lax.Net.Link.Impl.Link
import Lax.Net.Link.Lemmas.Prefix
import Lax.Net.Session.Lemmas.Stream

/-!
This module contains that what gets posted on the one side of a connection is what has been sent on
the other: in order, each message once, whoever sends and however it is read.
-/

namespace Lax
namespace Link

open BitsProtocol

variable {Tid : Type} {Body : UInt32 → Type}

section

variable (env : Env Body)

def Plain (m : BitsMessage Body) : Prop :=
  Modifiers.needsToModify env.cfg m.flags = false

-- The messages can be sent. Nobody starts on one that modifiers are applied to before the last one of
-- these is appended. The socket stays open and writes succeed.
def Orderly (s : State Tid Body) : Event Tid Body → Prop
  | .send _ m =>
    s.session.isOpen = true ∧ Sendable env m
      ∧ (¬Plain env m → ∀ t' m', s.packed t' = some m' → Plain env m')
  | .session e => Session.Undisturbed s.session e
  | .recv _ => True

instance decidablePlain (m : BitsMessage Body) : Decidable (Plain env m) :=
  inferInstanceAs (Decidable (_ = false))

instance decidableOrderly (s : State Bool Body) : (e : Event Bool Body) → Decidable (Orderly env s e)
  | .send _ m =>
    decidable_of_iff (s.session.isOpen = true ∧ Sendable env m
      ∧ (¬Plain env m → ∀ t, ∀ m ∈ s.packed t, Plain env m)) Iff.rfl
  | .session e => inferInstanceAs (Decidable (Session.Undisturbed s.session e))
  | .recv _ => isTrue trivial

-- What a thread is about to append.
def Packs (mods : Modifiers) (packed : Option (BitsMessage Body)) : Session.Pc → Prop
  | .sending data | .appending data => ∃ m, packed = some m ∧ Sendable env m ∧ data = frame env mods m
  | _ => packed = none

-- The modifiers of the sender, if those of somebody who has sent what is appended are `mods`.
structure Modified (mods mods' : Modifiers) (packed : Tid → Option (BitsMessage Body)) : Prop where
  plain : (∀ t m, packed t = some m → Plain env m) → mods' = mods
  modified : ∀ t m, packed t = some m → ¬Plain env m →
    mods' = Modifiers.sealedState env.lib env.cfg m.flags mods (payload env m)
      ∧ ∀ t' m', packed t' = some m' → t' ≠ t → Plain env m'

structure Received (bytes : List UInt8) (s : State Tid Body) : Prop where
  rc : s.rc = .ok ()
  posted : s.posted = ((frames env).run Modifiers.onBind bytes).msgs
  protocol : s.protocol = ⟨((frames env).run Modifiers.onBind bytes).rest,
    ((frames env).run Modifiers.onBind bytes).state⟩

structure Inv (length : Nat) (s : State Tid Body) : Prop where
  streams : Session.Streams length s.session
  outstanding : Session.Outstanding s.session
  appended : s.session.appended.flatten = wire env Modifiers.onBind s.sent
  sendable : ∀ m ∈ s.sent, Sendable env m
  packed : ∀ t, Packs env (after env Modifiers.onBind s.sent) (s.packed t) (s.session.threads t)
  mods : Modified env (after env Modifiers.onBind s.sent) s.mods s.packed
  read_le : s.read ≤ s.session.wire.length
  received : Received env (s.session.wire.take s.read) s

end

variable {env : Env Body} {length : Nat}

theorem sealed_of_plain {m : BitsMessage Body} (h : Plain env m) (mods : Modifiers) :
    Modifiers.sealedBody env.lib env.cfg m.flags mods (payload env m) = payload env m
      ∧ Modifiers.sealedState env.lib env.cfg m.flags mods (payload env m) = mods :=
  Modifiers.sealed_of_not_needsToModify env.lib h mods _

theorem frame_of_plain {m : BitsMessage Body} (h : Plain env m) (mods mods' : Modifiers) :
    frame env mods m = frame env mods' m := by
  unfold frame
  rw [(sealed_of_plain h mods).1, (sealed_of_plain h mods').1]

-- What is not modified is the same whatever is sent before it.
theorem Packs.congr {mods mods' : Modifiers} {packed : Option (BitsMessage Body)} {pc : Session.Pc}
    (h : Packs env mods packed pc) (hplain : mods ≠ mods' → ∀ m, packed = some m → Plain env m) :
    Packs env mods' packed pc := by
  by_cases hmods : mods = mods'
  . exact hmods ▸ h
  . cases pc with
    | sending data | appending data =>
      obtain ⟨m, hm, hsendable, rfl⟩ := h
      exact ⟨m, hm, hsendable, frame_of_plain (hplain hmods m hm) _ _⟩
    | _ => exact h

/-!
### The modifiers of the sender
-/

namespace Modified

variable {mods mods' : Modifiers} {packed : Tid → Option (BitsMessage Body)} {t : Tid}
  {m : BitsMessage Body}

theorem frame_eq (h : Modified env mods mods' packed)
    (hserial : ¬Plain env m → ∀ t' m', packed t' = some m' → Plain env m') :
    frame env mods' m = frame env mods m := by
  by_cases hm : Plain env m
  . exact frame_of_plain hm _ _
  . rw [h.plain (hserial hm)]

variable [DecidableEq Tid]

theorem send (h : Modified env mods mods' packed) (ht : packed t = none)
    (hserial : ¬Plain env m → ∀ t' m', packed t' = some m' → Plain env m') :
    Modified env mods (Modifiers.sealedState env.lib env.cfg m.flags mods' (payload env m))
      (Function.update packed t (some m)) := by
  have hcases : ∀ t' m', Function.update packed t (some m) t' = some m' →
      t' = t ∧ m = m' ∨ t' ≠ t ∧ packed t' = some m' := by
    intro t' m' h
    exact (Threads.update_cases (· = some m') h).imp_left (And.imp_right Option.some.inj)
  have hne : ∀ t' m', packed t' = some m' → t' ≠ t := by
    rintro t' m' h rfl
    cases ht.symm.trans h
  by_cases hm : Plain env m
  . rw [(sealed_of_plain hm mods').2]
    constructor
    . intro hall
      apply h.plain
      intro t' m' h'
      exact hall t' m' (by rwa [Function.update_of_ne (hne t' m' h')])
    . intro t' m' h' hm'
      obtain ⟨rfl, rfl⟩ | ⟨-, h'⟩ := hcases t' m' h'
      . exact absurd hm hm'
      . obtain ⟨hmods, hothers⟩ := h.modified t' m' h' hm'
        refine ⟨hmods, ?_⟩
        intro t'' m'' h'' hne'
        obtain ⟨-, rfl⟩ | ⟨-, h''⟩ := hcases t'' m'' h''
        . exact hm
        . exact hothers t'' m'' h'' hne'
  . rw [h.plain (hserial hm)]
    constructor
    . intro hall
      exact absurd (hall t m (Function.update_self ..)) hm
    . intro t' m' h' hm'
      obtain ⟨rfl, rfl⟩ | ⟨-, h'⟩ := hcases t' m' h'
      . refine ⟨rfl, ?_⟩
        intro t'' m'' h'' hne'
        obtain ⟨heq, -⟩ | ⟨-, h''⟩ := hcases t'' m'' h''
        . exact absurd heq hne'
        . exact hserial hm t'' m'' h''
      . exact absurd (hserial hm t' m' h') hm'

theorem append (h : Modified env mods mods' packed) (ht : packed t = some m) :
    Modified env (Modifiers.sealedState env.lib env.cfg m.flags mods (payload env m)) mods'
      (Function.update packed t none) := by
  have hcases : ∀ t' m', Function.update packed t none t' = some m' →
      t' ≠ t ∧ packed t' = some m' := by
    intro t' m' h
    obtain ⟨-, h⟩ | h := Threads.update_cases (· = some m') h
    . cases h
    . exact h
  by_cases hm : Plain env m
  . rw [(sealed_of_plain hm mods).2]
    constructor
    . intro hall
      apply h.plain
      intro t' m' h'
      by_cases hne : t' = t
      . subst hne
        cases ht.symm.trans h'
        exact hm
      . exact hall t' m' (by rwa [Function.update_of_ne hne])
    . intro t' m' h' hm'
      obtain ⟨hmods, hothers⟩ := h.modified t' m' (hcases t' m' h').2 hm'
      exact ⟨hmods, fun t'' m'' h'' => hothers t'' m'' (hcases t'' m'' h'').2⟩
  . obtain ⟨hmods, hothers⟩ := h.modified t m ht hm
    constructor
    . exact fun _ => hmods
    . intro t' m' h' hm'
      obtain ⟨hne, h'⟩ := hcases t' m' h'
      exact absurd (hothers t' m' h' hne) hm'

end Modified

/-!
### The side that sends
-/

variable {s s' : State Tid Body} {t : Tid} {m : BitsMessage Body} {e : Session.Event Tid}

theorem appends_eq_none {pc' : Session.Pc} {base : Session.State Tid} {s : Session.State Tid}
    (hmove : Session.Move length s t e (s.threads t) pc' base)
    (happ : ∀ data, s.threads t ≠ .appending data) : appends s e = none := by
  generalize hpc : s.threads t = pc at hmove happ
  cases hmove with
  | append => exact absurd rfl (happ _)
  | _ => first | rfl | (unfold appends; simp only [hpc])

theorem packs_of_move {mods : Modifiers} {packed : Option (BitsMessage Body)} {pc pc' : Session.Pc}
    {base s : Session.State Tid} (hmove : Session.Move length s t e pc pc' base)
    (hopen : s.isOpen = true) (hne : ∀ t data, e ≠ .send t data)
    (happ : ∀ data, pc ≠ .appending data) (h : Packs env mods packed pc) :
    Packs env mods packed pc' := by
  cases hmove with
  | send => exact absurd rfl (hne _ _)
  | append => exact absurd rfl (happ _)
  | refuse hclosed => cases hopen.symm.trans hclosed
  | _ => exact h

theorem appended_of_move {pc pc' : Session.Pc} {base s : Session.State Tid}
    (hmove : Session.Move length s t e pc pc' base) (happ : ∀ data, pc ≠ .appending data) :
    base.appended = s.appended ∧ base.wire = s.wire := by
  cases hmove with
  | append => exact absurd rfl (happ _)
  | _ => exact ⟨rfl, rfl⟩

variable [DecidableEq Tid]

theorem inv_send (hlength : 0 < length) (h : Inv env length s) (horderly : Orderly env s (.send t m))
    (hstep : step env length s (.send t m) = some s') : Inv env length s' := by
  obtain ⟨hopen, hsendable, hserial⟩ := horderly
  dsimp only [step] at hstep
  rw [send_eq env hsendable.le_longestPacked] at hstep
  obtain ⟨session, hsession, rfl⟩ := Option.map_eq_some_iff.mp hstep
  have hundisturbed : Session.Undisturbed s.session (.send t (frame env s.mods m)) :=
    ⟨hopen, fun _ _ => (nomatch ·)⟩
  have hstreams := Session.streams_step hlength h.streams h.outstanding hundisturbed hsession
  have houtstanding := Session.outstanding_step h.outstanding hsession
  dsimp only [Session.step] at hsession
  split at hsession
  . next hidle =>
    injection hsession with hsession
    subst hsession
    have hnone : s.packed t = none := by
      have hpacks := h.packed t
      rwa [hidle] at hpacks
    refine ⟨hstreams, houtstanding, h.appended, h.sendable, ?_, h.mods.send hnone hserial, h.read_le,
      ⟨h.received.rc, h.received.posted, h.received.protocol⟩⟩
    intro t'
    dsimp only [Session.State.goto]
    by_cases hne : t' = t
    . subst hne
      rw [Function.update_self, Function.update_self]
      exact ⟨m, rfl, hsendable, h.mods.frame_eq hserial⟩
    . rw [Function.update_of_ne hne, Function.update_of_ne hne]
      exact h.packed t'
  . cases hsession

theorem inv_append (h : Inv env length s) {data : List UInt8}
    (hpc : s.session.threads t = .appending data) {session : Session.State Tid}
    (hstreams : Session.Streams length session) (houtstanding : Session.Outstanding session)
    (happended : session.appended = s.session.appended ++ [data])
    (hwire : session.wire = s.session.wire)
    (hthreads : session.threads = Function.update s.session.threads t (.requestSend false)) :
    Inv env length { noteAppended s t with session } := by
  have hpacks := h.packed t
  rw [hpc] at hpacks
  obtain ⟨m, hm, hsendable, rfl⟩ := hpacks
  have hafter : after env Modifiers.onBind (s.sent ++ [m]) = Modifiers.sealedState env.lib env.cfg
      m.flags (after env Modifiers.onBind s.sent) (payload env m) := after_append _ _ _
  unfold noteAppended
  rw [hm, Option.toList_some]
  refine ⟨hstreams, houtstanding, ?_, ?_, ?_, ?_, hwire ▸ h.read_le,
    ⟨h.received.rc, hwire ▸ h.received.posted, hwire ▸ h.received.protocol⟩⟩
  . rw [happended, List.flatten_append, h.appended, wire_append]
    rfl
  . exact List.forall_mem_append.mpr ⟨h.sendable, List.forall_mem_singleton.mpr hsendable⟩
  . intro t'
    dsimp only
    rw [hthreads, hafter]
    by_cases hne : t' = t
    . subst hne
      rw [Function.update_self, Function.update_self]
      exact rfl
    . rw [Function.update_of_ne hne, Function.update_of_ne hne]
      apply (h.packed t').congr
      intro hchanged m' hm'
      refine (h.mods.modified t m hm ?_).2 t' m' hm' hne
      exact fun hplain => hchanged (sealed_of_plain hplain _).2.symm
  . dsimp only
    rw [hafter]
    exact h.mods.append hm

theorem inv_session (hlength : 0 < length) (h : Inv env length s)
    (hundisturbed : Session.Undisturbed s.session e) (hne : ∀ t data, e ≠ .send t data)
    (hstep : stepSession length s e = some s') : Inv env length s' := by
  obtain ⟨session, hsession, hs'⟩ := Option.map_eq_some_iff.mp hstep
  have hstreams := Session.streams_step hlength h.streams h.outstanding hundisturbed hsession
  have houtstanding := Session.outstanding_step h.outstanding hsession
  obtain ⟨t, pc', base, hmove, rfl⟩ | ⟨i, n, bytes, rfl, hbytes, rfl⟩ := Session.moved_of_step hsession
  . by_cases happ : ∃ data, s.session.threads t = .appending data
    . obtain ⟨data, hpc⟩ := happ
      rw [hpc] at hmove
      cases hmove with
      | append happend =>
        unfold appends at hs'
        simp only [hpc] at hs'
        subst hs'
        exact inv_append h hpc hstreams houtstanding rfl rfl rfl
    . rw [not_exists] at happ
      rw [appends_eq_none hmove happ] at hs'
      subst hs'
      obtain ⟨happended, hwire⟩ := appended_of_move hmove happ
      refine ⟨hstreams, houtstanding, happended ▸ h.appended, h.sendable, ?_, h.mods,
        hwire ▸ h.read_le, ⟨h.received.rc, hwire ▸ h.received.posted, hwire ▸ h.received.protocol⟩⟩
      intro t'
      dsimp only [Session.State.goto]
      rw [Session.threads_of_move hmove]
      by_cases hne' : t' = t
      . subst hne'
        rw [Function.update_self]
        exact packs_of_move hmove hundisturbed.1 hne happ (h.packed t')
      . rw [Function.update_of_ne hne']
        exact h.packed t'
  . subst hs'
    have htake : (s.session.wire ++ bytes.take n).take s.read = s.session.wire.take s.read :=
      List.take_append_of_le_length h.read_le
    refine ⟨hstreams, houtstanding, h.appended, h.sendable, h.packed, h.mods, ?_,
      ⟨h.received.rc, ?_, ?_⟩⟩
    . dsimp only [appends]
      rw [List.length_append]
      exact Nat.le_add_right_of_le h.read_le
    . dsimp only [appends]
      rw [htake]
      exact h.received.posted
    . dsimp only [appends]
      rw [htake]
      exact h.received.protocol

/-!
### The side that reads
-/

omit [DecidableEq Tid] in
theorem Inv.posts (h : Inv env length s) {n : Nat} :
    Posts env Modifiers.onBind s.sent (s.session.wire.take n)
      ((frames env).run Modifiers.onBind (s.session.wire.take n)) := by
  apply posts_of_prefix Modifiers.inStep_onBind h.sendable
  rw [← h.appended, ← h.streams.stream, List.append_assoc]
  exact (List.take_prefix n _).trans (List.prefix_append _ _)

theorem inv_recv {n : Nat} (h : Inv env length s) (hstep : step env length s (.recv n) = some s') :
    Inv env length s' := by
  dsimp only [step] at hstep
  rw [h.received.rc] at hstep
  dsimp only at hstep
  split at hstep
  . next hn =>
    injection hstep with hstep
    subst hstep
    refine ⟨h.streams, h.outstanding, h.appended, h.sendable, h.packed, h.mods, hn.2, ?_⟩
    have hposts := @Inv.posts Tid Body env length s h (s.read + n)
    have hbytes : s.session.wire.take (s.read + n)
        = s.session.wire.take s.read ++ Slice.read s.session.wire s.read n := List.take_add
    have hne : Slice.read s.session.wire s.read n ≠ [] := by
      have hlen := Slice.length_read _ _ _ hn.2
      intro hnil
      rw [hnil] at hlen
      exact Nat.ne_of_gt hn.1 hlen.symm
    have hagree := FrameParser.run_append (p := frames env) Modifiers.onBind
      (s.session.wire.take s.read) (Slice.read s.session.wire s.read n)
    rw [FrameParser.Run.andThen_ok h.posts.rc] at hagree
    rw [hbytes] at hposts
    have hown := hposts.own
    rw [hagree.keys] at hown
    have hsim := (@onRecv_simulates _ env s.protocol _ hne).2
    rw [h.received.protocol] at hsim ⊢
    have hrecv := hsim fun key hkey => hown key (List.mem_append_right _ hkey)
    have hrc := hrecv.rc.trans (hagree.rc.symm.trans hposts.rc)
    dsimp only
    rw [hbytes]
    refine ⟨hrc, ?_, ?_⟩
    . rw [hagree.msgs, hrecv.posted, h.received.posted]
      rfl
    . rw [hrecv.protocol hrc, hagree.rest hposts.rc, hagree.state]
      rfl
  . cases hstep

theorem inv_init : Inv env length (@machine Tid _ Body env length).init where
  streams := Session.streams_init
  outstanding := @Session.outstanding_init Tid _ length
  appended := rfl
  sendable := fun m hm => absurd hm List.not_mem_nil
  packed := fun _ => rfl
  mods := ⟨fun _ => rfl, fun _ _ h => nomatch h⟩
  read_le := Nat.le_refl 0
  received := by
    have hrun : (frames env).run Modifiers.onBind [] = ⟨.ok (), [], [], Modifiers.onBind, []⟩ :=
      FrameParser.run_wait rfl
    change Received env [] _
    refine ⟨rfl, ?_, ?_⟩
    . rw [hrun]
      rfl
    . rw [hrun]
      rfl

theorem inv_step (hlength : 0 < length) {e : Event Tid Body} (h : Inv env length s)
    (horderly : Orderly env s e) (hstep : step env length s e = some s') : Inv env length s' := by
  cases e with
  | send t m => exact inv_send hlength h horderly hstep
  | session e =>
    cases e with
    | send t data => cases hstep
    | _ => exact inv_session hlength h horderly (fun _ _ => (nomatch ·)) hstep
  | recv n => exact inv_recv h hstep

variable (env) in
structure Delivers (s : State Tid Body) : Prop where
  rc : s.rc = .ok ()
  posted : ∃ k, List.Forall₂ Arrived (s.sent.take k) s.posted
    ∧ s.session.wire.take s.read = wire env Modifiers.onBind (s.sent.take k) ++ s.protocol.recvBuf
    ∧ ∀ m, s.sent[k]? = some m →
      s.protocol.recvBuf.length < (frame env (after env Modifiers.onBind (s.sent.take k)) m).length
  complete : s.session.writes = [] → (∀ t, ¬(s.session.threads t).InSend) →
    s.read = s.session.wire.length → List.Forall₂ Arrived s.sent s.posted ∧ s.protocol.recvBuf = []

omit [DecidableEq Tid] in
theorem Inv.delivers (hlength : 0 < length) (h : Inv env length s) : Delivers env s where
  rc := h.received.rc
  posted := by
    rw [h.received.posted, h.received.protocol]
    exact h.posts.posted
  complete := by
    intro hwrites hthreads hread
    have hdrained := (h.streams.lossless hlength h.outstanding).drained hwrites hthreads
    have hflight := h.streams.handed.inFlight_eq_nil hwrites fun t handler ht =>
      hthreads t (by rw [ht]; exact trivial)
    have hbuffer : s.session.sendBuffer.bytes = [] := by
      apply List.eq_nil_of_length_eq_zero
      rw [← h.streams.buffer.size_eq, hdrained]
    have hall := h.streams.stream
    rw [hflight, hbuffer, List.append_nil, List.append_nil, h.appended] at hall
    have hposts := @Inv.posts Tid Body env length s h s.read
    rw [hread, List.take_length] at hposts
    rw [h.received.posted, h.received.protocol, hread, List.take_length]
    rw [hall] at hposts ⊢
    exact hposts.all

/--
What is posted is what has been sent, in order and each message once: as far as it has been read, and
everything as soon as nobody sends any more and the wire has been read.
-/
theorem delivers_of_orderly (env : Env Body) (length : Nat) (hlength : 0 < length)
    (s : State Tid Body) (es : List (Event Tid Body))
    (hrun : (machine env length).run (machine env length).init es = some s)
    (horderly : (machine env length).Along (Orderly env) (machine env length).init es) :
    Delivers env s := by
  have hinv : Inv env length s := by
    refine Machine.inv_of_along (Inv env length) ?_ hrun horderly inv_init
    intro s e s' h horderly hstep
    exact inv_step hlength h horderly hstep
  exact hinv.delivers hlength

-- Messages of topic 1 are plain, and all of the modifiers are applied to those of topic 2.
def mixedEnv : Env fun _ => { xs : List UInt8 // xs.length = 1 } :=
  {
    Env.single 1 {} with
    create := fun topic =>
      if topic = 1 then some {} else if topic = 2 then some ⟨true, true, true⟩ else none
  }

def message (x : UInt8) : BitsMessage fun _ => { xs : List UInt8 // xs.length = 1 } :=
  ⟨1, {}, 0, 0, ⟨[x], rfl⟩⟩

def sealedMessage (x : UInt8) : BitsMessage fun _ => { xs : List UInt8 // xs.length = 1 } :=
  ⟨2, ⟨true, true, true⟩, 0, 0, ⟨[x], rfl⟩⟩

-- `true` appends first. `false` sends once more while the write is under way.
def overtaking : List (Event Bool fun _ => { xs : List UInt8 // xs.length = 1 }) :=
  [.send false (message 7), .send true (sealedMessage 8)]
    ++ List.replicate 2 (.session (.next true true)) ++ List.replicate 2 (.session (.next false true))
    ++ List.replicate 4 (.session (.next true true)) ++ List.replicate 2 (.session (.next false true))
    ++ .send false (sealedMessage 9) :: List.replicate 4 (.session (.next false true))
    ++ [.session (.transmit 0 20), .recv 20, .session (.transmit 0 13), .recv 13]
    ++ .session (.writeDone true 0 true) :: List.replicate 6 (.session (.next true true))
    ++ [.session (.transmit 0 24), .recv 24]

theorem delivers_of_orderly_overtaking :
    ∃ s, (machine mixedEnv 4).run (machine mixedEnv 4).init overtaking = some s
      ∧ s.posted.length = 3 ∧ Delivers mixedEnv s := by
  have hrun : ((machine mixedEnv 4).run (machine mixedEnv 4).init overtaking).any
      (fun s => s.posted.length = 3) = true := by
    decide +kernel
  obtain ⟨s, hrun, hposted⟩ := (Option.any_eq_true _ _).mp hrun
  refine ⟨s, hrun, of_decide_eq_true hposted, ?_⟩
  exact delivers_of_orderly mixedEnv 4 (by decide) s overtaking hrun (by decide +kernel)

end Link
end Lax
