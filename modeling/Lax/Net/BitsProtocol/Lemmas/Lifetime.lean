import Lax.Net.BitsProtocol.Impl.Lifetime
import Lax.Net.BitsProtocol.Lemmas.Message
import Lax.Net.Modifier.Lemmas.Basic

/-!
This module contains what a protocol does to its modifiers over its life. No session calls `on_bind`,
so the first message of a class with a modifier that is on meets a modifier that is not bound.
-/

namespace Lax
namespace Lifetime

open BitsProtocol

/-!
### What the modifiers do
-/

-- Every `on_send` and `on_recv` comes after the `on_bind` of its modifier.
def BoundFirst (actions : List Action) : Prop :=
  ∀ before kind rest, actions = before ++ .use kind :: rest → .onBind kind ∈ before

namespace Members

variable {lib : Botan} {cfg : Config} {flags : Flags}

def Used (o o' : Members) (kinds : List Kind) : Prop :=
  o'.actions = o.actions ++ kinds.map .use

theorem Used.refl (o : Members) : Used o o [] :=
  (List.append_nil _).symm

theorem Used.trans {o o' o'' : Members} {kinds kinds' : List Kind} (h : Used o o' kinds)
    (h' : Used o' o'' kinds') : Used o o'' (kinds ++ kinds') := by
  unfold Used at *
  rw [h', h, List.map_append, List.append_assoc]

def enabled (cfg : Config) (flags : Flags) : Kind → Bool
  | .sequencer => cfg.enableSequence && flags.enableSequence
  | .checksum => cfg.enableChecksum && flags.enableChecksum
  | .cipher => cfg.enableCipher && flags.enableCipher

theorem used_sendSequence (o : Members) (buf : List UInt8) :
    Used o (sendSequence cfg flags o buf).2 ([Kind.sequencer].filter (enabled cfg flags)) := by
  unfold sendSequence
  cases h : cfg.enableSequence && flags.enableSequence <;> simp [Used, enabled, h, did, withSequencer]

theorem used_sendChecksum (o : Members) (buf : List UInt8) :
    Used o (sendChecksum lib cfg flags o buf).2 ([Kind.checksum].filter (enabled cfg flags)) := by
  unfold sendChecksum
  cases h : cfg.enableChecksum && flags.enableChecksum <;> simp [Used, enabled, h, did]

theorem used_sendCipher (o : Members) (buf : List UInt8) :
    Used o (sendCipher lib cfg flags o buf).2 ([Kind.cipher].filter (enabled cfg flags)) := by
  unfold sendCipher
  cases h : cfg.enableCipher && flags.enableCipher with
  | false => simp [Used, enabled, h]
  | true =>
    cases o with
    | mk sequencer cipher actions => cases cipher <;> simp [Used, enabled, h, did, withCipher]

theorem used_sendModified (o : Members) (buf : List UInt8) :
    Used o (sendModified lib cfg flags o buf).2
      ([Kind.sequencer, .checksum, .cipher].filter (enabled cfg flags)) := by
  have hkinds : [Kind.sequencer, .checksum, .cipher] = [.sequencer] ++ [.checksum] ++ [.cipher] := rfl
  have hsequence := @used_sendSequence cfg flags o buf
  have hchecksum := @used_sendChecksum lib cfg flags (sendSequence cfg flags o buf).2
    (sendSequence cfg flags o buf).1
  rw [hkinds, List.filter_append, List.filter_append]
  exact (hsequence.trans hchecksum).trans (@used_sendCipher lib cfg flags _ _)

theorem filter_enabled_eq_nil_iff :
    [Kind.sequencer, .checksum, .cipher].filter (enabled cfg flags) = []
      ↔
    Modifiers.needsToModify cfg flags = false := by
  simp only [List.filter_eq_nil_iff, List.mem_cons, List.not_mem_nil, or_false, forall_eq_or_imp,
    forall_eq, Bool.not_eq_true, Modifiers.needsToModify, Bool.or_eq_false_iff, enabled]
  constructor
  . rintro ⟨hsequence, hchecksum, hcipher⟩
    exact ⟨⟨hcipher, hchecksum⟩, hsequence⟩
  . rintro ⟨⟨hcipher, hchecksum⟩, hsequence⟩
    exact ⟨hsequence, hchecksum, hcipher⟩

/-!
### Receiving
-/

theorem used_recvCipher (o : Members) (buf : List UInt8) (msgPos msgLen : Nat) :
    Used o (recvCipher lib cfg o buf msgPos msgLen).state [.cipher] := by
  cases o with
  | mk sequencer cipher actions => cases cipher <;> rfl

theorem used_recvChecksum (o : Members) (buf : List UInt8) (msgPos msgLen : Nat) :
    Used o (recvChecksum lib o buf msgPos msgLen).state [.checksum] := rfl

theorem used_recvSequence (o : Members) (buf : List UInt8) (msgPos msgLen : Nat) :
    Used o (recvSequence o buf msgPos msgLen).state [.sequencer] := rfl

-- A stage of `recv_modified` has run.
def Started (o : Members) (r : Received Members) : Prop :=
  ∃ kinds, kinds ≠ [] ∧ Used o r.state kinds

theorem started_start (o : Members) (buf : List UInt8) (msgLen : Nat) {kind : Kind}
    {next : List UInt8 → Members → Nat → Received Members}
    (hnext : ∀ buf o msgLen, Used o (next buf o msgLen).state [kind]) :
    Started o ((Received.start buf o msgLen).andThen true next) := by
  rw [Received.andThen_true rfl]
  exact ⟨[kind], List.cons_ne_nil _ _, hnext _ _ _⟩

theorem Started.andThen {o : Members} {r : Received Members} (h : Started o r) (on : Bool)
    {kind : Kind} {next : List UInt8 → Members → Nat → Received Members}
    (hnext : ∀ buf o msgLen, Used o (next buf o msgLen).state [kind]) :
    Started o (r.andThen on next) := by
  cases hrc : r.rc with
  | error e =>
    rw [Received.andThen_error hrc]
    exact h
  | ok msgLen =>
    cases on with
    | false =>
      rw [Received.andThen_false]
      exact h
    | true =>
      obtain ⟨kinds, hne, hused⟩ := h
      rw [Received.andThen_true hrc]
      refine ⟨kinds ++ [kind], ?_, hused.trans (hnext _ _ _)⟩
      exact List.append_ne_nil_of_left_ne_nil hne _

theorem recvModified_eq_start (h : Modifiers.needsToModify cfg flags = false) (o : Members)
    (buf : List UInt8) (msgPos msgLen : Nat) :
    recvModified lib cfg flags o buf msgPos msgLen = .start buf o msgLen := by
  unfold Modifiers.needsToModify at h
  simp only [Bool.or_eq_false_iff] at h
  obtain ⟨⟨hcipher, hchecksum⟩, hsequence⟩ := h
  unfold recvModified
  simp only [hcipher, hchecksum, hsequence, Received.andThen_false]

theorem started_recvModified (h : Modifiers.needsToModify cfg flags = true) (o : Members)
    (buf : List UInt8) (msgPos msgLen : Nat) :
    Started o (recvModified lib cfg flags o buf msgPos msgLen) := by
  unfold recvModified
  dsimp only
  cases hcipher : cfg.enableCipher && flags.enableCipher with
  | true =>
    apply Started.andThen
    . apply Started.andThen
      . apply started_start
        exact fun _ _ _ => used_recvCipher _ _ _ _
      . exact fun _ _ _ => used_recvChecksum _ _ _ _
    . exact fun _ _ _ => used_recvSequence _ _ _ _
  | false =>
    rw [Received.andThen_false]
    cases hchecksum : cfg.enableChecksum && flags.enableChecksum with
    | true =>
      apply Started.andThen
      . apply started_start
        exact fun _ _ _ => used_recvChecksum _ _ _ _
      . exact fun _ _ _ => used_recvSequence _ _ _ _
    | false =>
      have hsequence : (cfg.enableSequence && flags.enableSequence) = true := by
        simpa [Modifiers.needsToModify, hcipher, hchecksum] using h
      rw [Received.andThen_false, hsequence]
      apply started_start
      exact fun _ _ _ => used_recvSequence _ _ _ _

end Members

/-!
### Steps
-/

open Members

variable {Body : UInt32 → Type} {env : Env Body}
  {archivedId : (cls : UInt32) → Body cls → Option UInt32}

-- The event asks nothing of a modifier.
def Plain (env : Env Body) (s : State) : Event Body → Prop
  | .send m => Modifiers.needsToModify env.cfg m.flags = false
  | .sendData flags data =>
    data.length < headerLength ∨ Modifiers.needsToModify env.cfg flags = false
  | .recv _ => True
  | .round =>
    ∀ pos topic msgLen flags, s.loop = .running pos → nextFrame s.recvBuf pos = some (topic, msgLen) →
      env.create topic = some flags → Modifiers.needsToModify env.cfg flags = false

-- What a step does with the modifiers: nothing at all, or it uses some of them.
def Outcome (plain : Prop) (s s' : State) : Prop :=
  plain ∧ s'.members = s.members ∧ s'.fault = s.fault
    ∨ ¬plain ∧ ∃ kinds, kinds ≠ [] ∧ Used s.members s'.members kinds

theorem Outcome.congr {plain plain' : Prop} {s s' : State} (h : Outcome plain s s')
    (hiff : plain ↔ plain') : Outcome plain' s s' := by
  unfold Outcome at *
  rwa [← hiff]

theorem Outcome.of_eq {plain : Prop} {s s' : State} (h : plain) (hmembers : s'.members = s.members)
    (hfault : s'.fault = s.fault) : Outcome plain s s' :=
  Or.inl ⟨h, hmembers, hfault⟩

theorem members_write (s : State) (buf : List UInt8) : (s.write buf).members = s.members := by
  unfold State.write
  split <;> rfl

theorem fault_write (s : State) (buf : List UInt8) : (s.write buf).fault = s.fault := by
  unfold State.write
  split <;> rfl

theorem outcome_sendFinal (s : State) (flags : Flags) (buf : List UInt8) :
    Outcome (Modifiers.needsToModify env.cfg flags = false) s (sendFinal env s flags buf) := by
  unfold sendFinal
  cases hneeds : Modifiers.needsToModify env.cfg flags with
  | false =>
    left
    exact ⟨rfl, members_write s buf, fault_write s buf⟩
  | true =>
    right
    have hne : [Kind.sequencer, .checksum, .cipher].filter (enabled env.cfg flags) ≠ [] := by
      rw [Ne, filter_enabled_eq_nil_iff, hneeds]
      decide
    have hused := @used_sendModified env.lib env.cfg flags s.members buf
    refine ⟨by decide, _, hne, ?_⟩
    simp only [if_true]
    split
    . next heq =>
      rw [members_write]
      rwa [heq] at hused
    . next heq => rwa [heq] at hused

theorem outcome_handle (s : State) (pos : Nat) (topic : UInt32) (msgLen : Nat) :
    Outcome (∀ flags, env.create topic = some flags → Modifiers.needsToModify env.cfg flags = false)
      s (handle env archivedId s pos topic msgLen).1 := by
  unfold handle
  cases hcreate : env.create topic with
  | none =>
    left
    exact ⟨fun _ h => (nomatch h), rfl, rfl⟩
  | some flags =>
    dsimp only
    cases hneeds : Modifiers.needsToModify env.cfg flags with
    | false =>
      left
      rw [recvModified_eq_start hneeds]
      refine ⟨?_, ?_⟩
      . intro flags' h
        injection h with h
        rwa [← h]
      . unfold Received.start
        dsimp only
        split <;> exact ⟨rfl, rfl⟩
    | true =>
      right
      refine ⟨?_, ?_⟩
      . intro h
        have hfalse := h flags rfl
        rw [hneeds] at hfalse
        contradiction
      . have hstarted := @started_recvModified env.lib _ _ hneeds s.members s.recvBuf pos msgLen
        split
        . exact hstarted
        . split <;> exact hstarted

theorem outcome_round (s : State) (pos : Nat) :
    Outcome
      (∀ topic msgLen flags, nextFrame s.recvBuf pos = some (topic, msgLen) →
        env.create topic = some flags → Modifiers.needsToModify env.cfg flags = false)
      s (round env archivedId s pos).1 := by
  unfold round
  cases hframe : nextFrame s.recvBuf pos with
  | none => exact .of_eq (fun _ _ _ h => nomatch h) rfl rfl
  | some frame =>
    apply (outcome_handle s pos frame.1 frame.2).congr
    constructor
    . intro h topic msgLen flags hframe
      injection hframe with hframe
      rw [hframe] at h
      exact h flags
    . exact fun h flags => h frame.1 frame.2 flags rfl

theorem outcome_send (s : State) (m : BitsMessage Body) :
    Outcome (Modifiers.needsToModify env.cfg m.flags = false) s (send env s m) := by
  unfold send
  have hle := BitsMessage.headerLength_le_length_pack env.codec m
  dsimp only
  rw [if_neg (Nat.not_lt.mpr hle)]
  apply outcome_sendFinal

theorem outcome_sendData (s : State) (flags : Flags) (data : List UInt8) :
    Outcome (data.length < headerLength ∨ Modifiers.needsToModify env.cfg flags = false) s
      (sendData env s flags data) := by
  unfold sendData
  split
  . next hlt => exact .of_eq (Or.inl hlt) rfl rfl
  . next hge =>
    apply (outcome_sendFinal s flags data).congr
    rw [or_iff_right hge]

theorem outcome_step {s s' : State} {e : Event Body} {p : Option (Packet Body)}
    (h : step env archivedId s e = some (s', p)) : Outcome (Plain env s e) s s' := by
  unfold step at h
  split at h
  . contradiction
  . split at h
    . injection h with h
      injection h with h
      rw [← h]
      apply outcome_send
    . injection h with h
      injection h with h
      rw [← h]
      apply outcome_sendData
    . injection h with h
      injection h with h
      rw [← h]
      exact .of_eq trivial rfl rfl
    . injection h with h
      injection h with h
      rw [← h]
      exact .of_eq trivial rfl rfl
    . next pos hloop =>
      injection h with h
      have hround := @outcome_round _ env archivedId s pos
      rw [h] at hround
      apply hround.congr
      constructor
      . intro hplain pos' topic msgLen flags hpos
        injection hloop.symm.trans hpos with hpos
        exact hpos ▸ hplain topic msgLen flags
      . exact fun hplain topic msgLen flags => hplain pos topic msgLen flags hloop
    . contradiction

/-!
### Runs
-/

theorem used_step {s s' : State} {e : Event Body} {p : Option (Packet Body)}
    (h : step env archivedId s e = some (s', p)) : ∃ kinds, Used s.members s'.members kinds := by
  obtain ⟨-, hmembers, -⟩ | ⟨-, kinds, -, hused⟩ := outcome_step h
  . refine ⟨[], ?_⟩
    rw [hmembers]
    apply Used.refl
  . exact ⟨kinds, hused⟩

theorem step_of_machine {start s s' : State} {e : Event Body}
    (h : (machine env archivedId start).step s e = some s') :
    ∃ p, step env archivedId s e = some (s', p) := by
  obtain ⟨⟨s', p⟩, hstep, rfl⟩ := Option.map_eq_some_iff.mp h
  exact ⟨p, hstep⟩

theorem used_of_run {start s s' : State} {es : List (Event Body)}
    (hrun : (machine env archivedId start).run s es = some s') :
    ∃ kinds, Used s.members s'.members kinds := by
  apply Machine.inv_of_run (fun s' => ∃ kinds, Used s.members s'.members kinds) ?_ hrun
  . exact ⟨[], Used.refl _⟩
  . intro s₁ e s₂ h hstep
    obtain ⟨kinds, hused⟩ := h
    obtain ⟨p, hstep⟩ := step_of_machine hstep
    obtain ⟨more, hmore⟩ := used_step hstep
    exact ⟨kinds ++ more, hused.trans hmore⟩

theorem eq_of_along {start s s' : State} {es : List (Event Body)}
    (hrun : (machine env archivedId start).run s es = some s')
    (halong : (machine env archivedId start).Along (Plain env) s es) :
    s'.members = s.members ∧ s'.fault = s.fault := by
  apply Machine.inv_of_along (fun s' => s'.members = s.members ∧ s'.fault = s.fault) ?_ hrun halong
  . exact ⟨rfl, rfl⟩
  . intro s₁ e s₂ h hplain hstep
    obtain ⟨hmembers, hfault⟩ := h
    obtain ⟨p, hstep⟩ := step_of_machine hstep
    obtain ⟨-, hmembers', hfault'⟩ | ⟨hplain', -⟩ := outcome_step hstep
    . exact ⟨hmembers'.trans hmembers, hfault'.trans hfault⟩
    . exact absurd hplain hplain'

theorem along_of_eq {start s s' : State} {es : List (Event Body)}
    (hrun : (machine env archivedId start).run s es = some s')
    (hactions : s'.members.actions = s.members.actions) :
    (machine env archivedId start).Along (Plain env) s es := by
  induction es generalizing s with
  | nil => trivial
  | cons e es ih =>
    obtain ⟨mid, hmid, hrun⟩ := Machine.run_cons hrun
    obtain ⟨p, hstep⟩ := step_of_machine hmid
    obtain ⟨hplain, hmembers, -⟩ | ⟨-, kinds, hne, hused⟩ := outcome_step hstep
    . apply Machine.along_cons hplain hmid
      apply ih hrun
      rw [hmembers, hactions]
    . obtain ⟨kinds', hused'⟩ := used_of_run hrun
      have htrans := hused.trans hused'
      unfold Used at htrans
      rw [hactions, List.self_eq_append_right, List.map_eq_nil_iff, List.append_eq_nil_iff] at htrans
      exact absurd htrans.1 hne

theorem not_boundFirst {o : Members} {kinds : List Kind} (hused : Used Members.ctor o kinds)
    (hne : kinds ≠ []) : ¬BoundFirst o.actions := by
  intro h
  cases kinds with
  | nil => contradiction
  | cons kind kinds =>
    have hbound := h [] kind (kinds.map .use) hused
    contradiction

/--
Modifiers are bound before they are used just if no message ever needs them.
-/
theorem boundFirst_iff_along (env : Env Body)
    (archivedId : (cls : UInt32) → Body cls → Option UInt32) (es : List (Event Body)) (s : State)
    (hrun : (machine env archivedId (create false)).run (create false) es = some s) :
    (BoundFirst s.members.actions ∧ s.fault = false)
      ↔
    (machine env archivedId (create false)).Along (Plain env) (create false) es := by
  constructor
  . intro h
    obtain ⟨kinds, hused⟩ := used_of_run hrun
    have hnil : kinds = [] := by
      by_contra hne
      exact not_boundFirst hused hne h.1
    apply along_of_eq hrun
    rw [hnil] at hused
    exact hused
  . intro h
    obtain ⟨hmembers, hfault⟩ := eq_of_along hrun h
    rw [hmembers, hfault]
    refine ⟨?_, rfl⟩
    intro before kind rest heq
    have hlength := congrArg List.length heq
    simp [create, State.bind, ctor, Members.ctor] at hlength

-- A message of a class without modifiers.
theorem boundFirst_iff_along_plain :
    let env := Env.single 1 {}
    let m : BitsMessage fun _ => { xs : List UInt8 // xs.length = 1 } :=
      { cls := 1, flags := {}, body := ⟨[7], rfl⟩ }
    ∃ s, (machine env (fun _ _ => none) (create false)).run (create false) [.send m] = some s
      ∧ ((BoundFirst s.members.actions ∧ s.fault = false)
        ↔
      (machine env (fun _ _ => none) (create false)).Along (Plain env) (create false) [.send m]) :=
  ⟨_, rfl, boundFirst_iff_along _ _ _ _ rfl⟩

-- The first encrypted message that a session sends goes through a null pointer.
theorem exists_not_boundFirst :
    let env := Env.single 1 { enableCipher := true }
    let m : BitsMessage fun _ => { xs : List UInt8 // xs.length = 1 } :=
      { cls := 1, flags := { enableCipher := true }, body := ⟨[7], rfl⟩ }
    ∃ s, (machine env (fun _ _ => none) (create false)).run (create false) [.send m] = some s
      ∧ ¬BoundFirst s.members.actions ∧ s.fault = true := by
  refine ⟨_, rfl, ?_, rfl⟩
  intro h
  have hbound := h [] .cipher [] rfl
  contradiction

/-!
### After `on_bind`
-/

theorem BoundFirst.append {actions : List Action} (h : BoundFirst actions)
    (hbound : ∀ kind, .onBind kind ∈ actions) (kinds : List Kind) :
    BoundFirst (actions ++ kinds.map .use) := by
  intro before kind rest heq
  rcases List.append_eq_append_iff.mp heq with ⟨more, hbefore, -⟩ | ⟨more, hactions, hrest⟩
  . rw [hbefore]
    exact List.mem_append_left _ (hbound kind)
  . cases more with
    | nil =>
      rw [List.append_nil] at hactions
      exact hactions ▸ hbound kind
    | cons action more =>
      injection hrest with haction
      subst haction
      exact h before kind more hactions

-- All that is missing is the call of `on_bind`.
theorem boundFirst_of_onBind {start s : State} {es : List (Event Body)}
    (hstart : start.members = Members.ctor.onBind)
    (hrun : (machine env archivedId start).run start es = some s) : BoundFirst s.members.actions := by
  obtain ⟨kinds, hused⟩ := used_of_run hrun
  unfold Used at hused
  rw [hused, hstart]
  apply BoundFirst.append
  . intro before kind rest heq
    have hmem : Action.use kind ∈ Members.ctor.onBind.actions := by
      rw [heq]
      exact List.mem_append_right _ List.mem_cons_self
    exact absurd hmem (by cases kind <;> decide)
  . intro kind
    cases kind <;> decide

-- From then on the members are those of the stack of modifiers.
def Members.ofModifiers (mods : Modifiers) (actions : List Action) : Members :=
  ⟨mods.sequencer, some mods.cipher, actions⟩

theorem onBind_ctor :
    Members.ctor.onBind
      =
    .ofModifiers Modifiers.onBind [.onBind .sequencer, .onBind .checksum, .onBind .cipher] := rfl

theorem sendSequence_ofModifiers (cfg : Config) (flags : Flags) (mods : Modifiers)
    (actions : List Action) (buf : List UInt8) :
    ∃ actions', Members.sendSequence cfg flags (.ofModifiers mods actions) buf
      =
    ((Modifiers.sendSequence cfg flags mods buf).1,
      .ofModifiers (Modifiers.sendSequence cfg flags mods buf).2 actions') := by
  unfold Members.sendSequence Modifiers.sendSequence
  cases cfg.enableSequence && flags.enableSequence <;> exact ⟨_, rfl⟩

theorem sendChecksum_ofModifiers (lib : Botan) (cfg : Config) (flags : Flags) (mods : Modifiers)
    (actions : List Action) (buf : List UInt8) :
    ∃ actions', Members.sendChecksum lib cfg flags (.ofModifiers mods actions) buf
      =
    (Modifiers.sendChecksum lib cfg flags buf, .ofModifiers mods actions') := by
  unfold Members.sendChecksum Modifiers.sendChecksum
  cases cfg.enableChecksum && flags.enableChecksum <;> exact ⟨_, rfl⟩

theorem sendCipher_ofModifiers (lib : Botan) (cfg : Config) (flags : Flags) (mods : Modifiers)
    (actions : List Action) (buf : List UInt8) :
    ∃ actions', Members.sendCipher lib cfg flags (.ofModifiers mods actions) buf
      =
    (some (Modifiers.sendCipher lib cfg flags mods buf).1,
      .ofModifiers (Modifiers.sendCipher lib cfg flags mods buf).2 actions') := by
  unfold Members.sendCipher Modifiers.sendCipher
  cases cfg.enableCipher && flags.enableCipher <;> exact ⟨_, rfl⟩

theorem sendModified_ofModifiers (lib : Botan) (cfg : Config) (flags : Flags) (mods : Modifiers)
    (actions : List Action) (buf : List UInt8) :
    ∃ actions', Members.sendModified lib cfg flags (.ofModifiers mods actions) buf
      =
    (some (Modifiers.sendModified lib cfg flags mods buf).1,
      .ofModifiers (Modifiers.sendModified lib cfg flags mods buf).2 actions') := by
  obtain ⟨actions', hsequence⟩ := sendSequence_ofModifiers cfg flags mods actions buf
  obtain ⟨actions'', hchecksum⟩ := sendChecksum_ofModifiers lib cfg flags
    (Modifiers.sendSequence cfg flags mods buf).2 actions'
    (Modifiers.sendSequence cfg flags mods buf).1
  unfold Members.sendModified Modifiers.sendModified
  simp only [hsequence, hchecksum]
  apply sendCipher_ofModifiers

theorem andThen_ofModifiers {actions : List Action} {r : Received Members} {r₀ : Received Modifiers}
    (h : r = r₀.map (.ofModifiers · actions)) (on : Bool) (kind : Kind)
    (next : List UInt8 → Members → Nat → Received Members)
    (next₀ : List UInt8 → Modifiers → Nat → Received Modifiers)
    (hnext : ∀ buf mods msgLen, next buf (.ofModifiers mods actions) msgLen
      =
    (next₀ buf mods msgLen).map (.ofModifiers · (actions ++ [.use kind]))) :
    ∃ actions', r.andThen on next = (r₀.andThen on next₀).map (.ofModifiers · actions') := by
  subst h
  cases hrc : r₀.rc with
  | error e =>
    have hmap : (r₀.map (Members.ofModifiers · actions)).rc = .error e := hrc
    rw [Received.andThen_error hmap, Received.andThen_error hrc]
    exact ⟨actions, rfl⟩
  | ok msgLen =>
    cases on with
    | false =>
      rw [Received.andThen_false, Received.andThen_false]
      exact ⟨actions, rfl⟩
    | true =>
      refine ⟨actions ++ [.use kind], ?_⟩
      unfold Received.andThen
      simp only [Received.rc_map, hrc, if_true]
      unfold Received.map at *
      simp only [hnext]

theorem recvModified_ofModifiers (lib : Botan) (cfg : Config) (flags : Flags) (mods : Modifiers)
    (actions : List Action) (buf : List UInt8) (msgPos msgLen : Nat) :
    ∃ actions', Members.recvModified lib cfg flags (.ofModifiers mods actions) buf msgPos msgLen
      =
    (Modifiers.recvModified lib cfg flags mods buf msgPos msgLen).map (.ofModifiers · actions') := by
  have hstart : Received.start buf (Members.ofModifiers mods actions) msgLen
      = (Received.start buf mods msgLen).map (.ofModifiers · actions) := rfl
  obtain ⟨_, hcipher⟩ := andThen_ofModifiers hstart (cfg.enableCipher && flags.enableCipher) .cipher
    (fun buf o msgLen => Members.recvCipher lib cfg o buf msgPos msgLen)
    (fun buf mods msgLen => Modifiers.recvCipher lib cfg mods buf msgPos msgLen)
    fun _ _ _ => rfl
  obtain ⟨_, hchecksum⟩ := andThen_ofModifiers hcipher
    (cfg.enableChecksum && flags.enableChecksum) .checksum
    (fun buf o msgLen => Members.recvChecksum lib o buf msgPos msgLen)
    (fun buf mods msgLen => Modifiers.recvChecksum lib mods buf msgPos msgLen)
    fun _ _ _ => rfl
  exact andThen_ofModifiers hchecksum (cfg.enableSequence && flags.enableSequence) .sequencer
    (fun buf o msgLen => Members.recvSequence o buf msgPos msgLen)
    (fun buf mods msgLen => Modifiers.recvSequence mods buf msgPos msgLen)
    fun _ _ _ => rfl

end Lifetime
end Lax
