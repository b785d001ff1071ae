import Lax.Foundation.FrameParser
import Lax.Net.BitsProtocol.Impl.Protocol
import Lax.Net.BitsProtocol.Lemmas.Message

/-!
This module contains the proof that the sizes of the reads do not matter: `on_recv` does what a
`FrameParser` does that sees each frame on its own.
-/

namespace Lax

open BitsMessage

namespace BitsProtocol

variable {Body : UInt32 → Type} (env : Env Body)

/-!
### The loop
-/

variable {env}

theorem loop_none {mods : Modifiers} {buf : List UInt8} {pos : Nat}
    (h : nextCall mods buf pos = none) : loop env mods buf pos = ⟨.ok (), [], [], buf, mods, pos⟩ := by
  unfold loop
  split <;> simp_all

-- One call of a handler, and what comes after it.
theorem loop_some {mods : Modifiers} {buf : List UInt8} {pos : Nat} {call : Call}
    (hcall : nextCall mods buf pos = some call) :
    loop env mods buf pos
      =
    match (handle env call).rc with
    | .error e => ⟨.error e, [], [call], (handle env call).buf, (handle env call).mods, pos⟩
    | .ok m =>
      let rest := loop env (handle env call).mods (handle env call).buf (pos + call.len)
      { rest with posted := m :: rest.posted, calls := call :: rest.calls } := by
  rw [loop]
  split
  . simp_all
  . next call' hcall' =>
    rw [hcall] at hcall'
    injection hcall' with hcall'
    subst hcall'
    dsimp only
    split <;> simp_all

theorem loop_error {mods : Modifiers} {buf : List UInt8} {pos : Nat} {call : Call} {e : Failure}
    (hcall : nextCall mods buf pos = some call) (hrc : (handle env call).rc = .error e) :
    loop env mods buf pos
      =
    ⟨.error e, [], [call], (handle env call).buf, (handle env call).mods, pos⟩ := by
  rw [loop_some hcall, hrc]

theorem loop_ok {mods : Modifiers} {buf : List UInt8} {pos : Nat} {call : Call}
    {m : BitsMessage Body} (hcall : nextCall mods buf pos = some call)
    (hrc : (handle env call).rc = .ok m) :
    loop env mods buf pos
      =
    let rest := loop env (handle env call).mods (handle env call).buf (pos + call.len)
    { rest with posted := m :: rest.posted, calls := call :: rest.calls } := by
  rw [loop_some hcall, hrc]

/-!
### Frames on their own
-/

theorem nextCall_shift (mods : Modifiers) (pre xs : List UInt8) :
    nextCall mods (pre ++ xs) pre.length
      =
    (nextCall mods xs 0).map fun call => { call with buf := pre ++ xs, pos := pre.length } := by
  have hlen : (pre ++ xs).length - pre.length = xs.length - 0 := by
    rw [List.length_append]
    omega
  have hlength : getLength (pre ++ xs) pre.length = getLength xs 0 :=
    congrArg UInt32.toNat (getValue4b_shift pre xs 0)
  have htopic : getTopic (pre ++ xs) (pre.length + 4) = getTopic xs (0 + 4) :=
    getValue4b_shift pre xs 4
  unfold nextCall
  dsimp only
  rw [hlen, hlength, htopic]
  split
  . split <;> rfl
  . rfl

theorem nextCall_append {mods : Modifiers} {xs ys : List UInt8} {call : Call}
    (h : nextCall mods xs 0 = some call) :
    nextCall mods (xs ++ ys) 0 = some { call with buf := xs ++ ys } := by
  obtain ⟨rfl, hpos, hin⟩ := nextCall_eq_some h
  have hheader : headerLength = 8 := rfl
  have hrange : 0 + getLength xs 0 ≤ xs.length := hin
  have hlength : getLength (xs ++ ys) 0 = getLength xs 0 :=
    congrArg UInt32.toNat (getValue4b_append xs ys 0 (by omega))
  have htopic : getTopic (xs ++ ys) (0 + 4) = getTopic xs (0 + 4) :=
    getValue4b_append xs ys 4 (by omega)
  unfold nextCall
  dsimp only
  rw [hlength, htopic, List.length_append, if_pos (by omega), if_neg (by omega)]

def Call.own (call : Call) : Call :=
  { call with buf := Slice.read call.buf call.pos call.len, pos := 0 }

theorem Call.length_own {call : Call} (h : InRange call.buf call.pos call.len) :
    call.own.buf.length = call.len :=
  Slice.length_read _ _ _ h

theorem Call.inRange_own {call : Call} (h : InRange call.buf call.pos call.len) :
    InRange call.own.buf call.own.pos call.own.len :=
  Nat.le_of_eq ((Nat.zero_add _).trans (length_own h).symm)

def Call.key (call : Call) : UInt32 × Nat :=
  (call.topic, call.len)

namespace Handled

def embed (pre post : List UInt8) (handled : Handled Body) : Handled Body :=
  { handled with buf := pre ++ handled.buf ++ post }

end Handled

variable (env) in
-- The outcome of `recv_modified` and `unpack` on a frame depends on nothing but the bytes of the
-- frame and the state of the modifiers.
def DependsOnOwnBytes (topic : UInt32) (len : Nat) : Prop :=
  ∀ (mods : Modifiers) (pre frame post : List UInt8), frame.length = len →
    handle env ⟨topic, mods, pre ++ frame ++ post, pre.length, len⟩
      =
    (handle env ⟨topic, mods, frame, 0, len⟩).embed pre post

theorem unpack_embed (codec : Bitsery Body) (cls : UInt32) (flags : Flags)
    (pre mid post : List UInt8) (len : Nat) (h : len ≤ mid.length ∨ 2 ^ 63 ≤ len) :
    unpack codec cls flags (pre ++ mid ++ post) pre.length len = unpack codec cls flags mid 0 len := by
  unfold unpack
  by_cases hlen : 2 ^ 63 ≤ len
  . rw [if_pos (Or.inl hlen), if_pos (Or.inl hlen)]
  . have hread := Slice.read_middle pre mid post 0 len (by omega)
    have hin : InRange (pre ++ mid ++ post) pre.length len := by
      unfold InRange
      simp only [List.length_append]
      omega
    have hin' : InRange mid 0 len := by
      unfold InRange
      omega
    rw [Nat.add_zero] at hread
    rw [if_neg (not_or.mpr ⟨hlen, (· hin)⟩), if_neg (not_or.mpr ⟨hlen, (· hin')⟩), hread]

-- This is where the sequence matters: `sequencer::on_recv` looks before a frame of length 0.
theorem dependsOnOwnBytes_of_sequence {topic : UInt32} {len : Nat}
    (h : ∀ flags, env.create topic = some flags →
      (env.cfg.enableSequence && flags.enableSequence) = true → 0 < len) :
    DependsOnOwnBytes env topic len := by
  intro mods pre frame post hframe
  unfold handle
  dsimp only
  cases hcreate : env.create topic with
  | none => rfl
  | some flags =>
    dsimp only
    have hembed := @Modifiers.recvModified_embed env.lib env.cfg flags mods pre frame post len
      (h flags hcreate) (by omega)
    have hlen := @Modifiers.length_buf_recvModified env.lib env.cfg flags mods frame 0 len
      (by unfold InRange; omega)
    rw [hembed, Received.rc_embed, Received.buf_embed, Received.state_embed]
    cases hrc : (Modifiers.recvModified env.lib env.cfg flags mods frame 0 len).rc with
    | error e => rfl
    | ok finalLen =>
      have hfinal := Modifiers.recvModified_eq_ok (show InRange frame 0 len by unfold InRange; omega) hrc
      dsimp only
      rw [unpack_embed env.codec topic flags pre _ post finalLen (by omega)]
      split <;> rfl

theorem read_own {xs : List UInt8} {len : Nat} (h : len ≤ xs.length) (ys : List UInt8) :
    Slice.read (xs ++ ys) 0 len = Slice.read xs 0 len := by
  rw [Slice.read_zero, Slice.read_zero, List.take_append_of_le_length h]

variable (env) in
def nextFrame (mods : Modifiers) (xs : List UInt8) :
    FrameParser.Step Modifiers (UInt32 × Nat) (BitsMessage Body) Failure :=
  match nextCall mods xs 0 with
  | none => .wait
  | some call =>
    let handled := handle env call.own
    match handled.rc with
    | .error e => .stop call.key e handled.mods
    | .ok m => .frame call.key call.len m handled.mods

variable (env) in
-- What `on_recv` is for: each frame is treated on its own.
def frames : FrameParser UInt8 Modifiers (UInt32 × Nat) (BitsMessage Body) Failure where
  next := nextFrame env
  size_of_frame := by
    intro mods xs key size m mods' h
    unfold nextFrame at h
    split at h
    . contradiction
    . next call hcall =>
      obtain ⟨hcall, hpos, hin⟩ := nextCall_eq_some hcall
      have hrange : call.pos + call.len ≤ call.buf.length := hin
      have hheader : headerLength = 8 := rfl
      dsimp only at h
      split at h
      . contradiction
      . next m' hrc =>
        have hlen := headerLength_le_of_handle env (Call.inRange_own hin) hrc
        injection h with _ hsize
        dsimp only [Call.own] at hlen
        subst hcall
        dsimp only at hlen hsize hrange
        omega
  next_append := by
    intro mods xs ys h
    unfold nextFrame at *
    cases hcall : nextCall mods xs 0 with
    | none =>
      rw [hcall] at h
      exact absurd rfl h
    | some call =>
      rw [nextCall_append hcall]
      obtain ⟨rfl, hpos, hin⟩ := nextCall_eq_some hcall
      have hrange : 0 + getLength xs 0 ≤ xs.length := hin
      dsimp only [Call.own, Call.key]
      rw [read_own (by omega) ys]

structure Simulates (l : Loop Body)
    (r : FrameParser.Run UInt8 Modifiers (UInt32 × Nat) (BitsMessage Body) Failure) : Prop where
  rc : l.rc = r.rc
  posted : l.posted = r.msgs
  mods : l.mods = r.state
  rest : l.rc = .ok () → l.buf.drop l.processedLen = r.rest

-- A frame that depends on other bytes is empty, and it is rejected in either case.
theorem handle_of_not_own {call : Call} (hin : InRange call.buf call.pos call.len)
    (h : ¬DependsOnOwnBytes env call.topic call.len) : ∃ e, (handle env call).rc = .error e := by
  cases hrc : (handle env call).rc with
  | error e => exact ⟨e, rfl⟩
  | ok m =>
    have hlen := headerLength_le_of_handle env hin hrc
    have hheader : headerLength = 8 := rfl
    refine absurd (dependsOnOwnBytes_of_sequence ?_) h
    intro _ _ _
    omega

theorem loop_simulates (mods : Modifiers) (pre xs : List UInt8) :
    (loop env mods (pre ++ xs) pre.length).calls.map Call.key = ((frames env).run mods xs).keys
      ∧ ((∀ key ∈ ((frames env).run mods xs).keys, DependsOnOwnBytes env key.1 key.2) →
        Simulates (loop env mods (pre ++ xs) pre.length) ((frames env).run mods xs)) := by
  induction hn : xs.length using Nat.strongRecOn generalizing mods pre xs with
  | _ n ih =>
    have hshift := nextCall_shift mods pre xs
    cases hcall : nextCall mods xs 0 with
    | none =>
      rw [hcall] at hshift
      have hwait : (frames env).next mods xs = .wait := by
        simp only [frames, nextFrame, hcall]
      rw [loop_none hshift, FrameParser.run_wait hwait]
      exact ⟨rfl, fun _ => ⟨rfl, rfl, rfl, fun _ => List.drop_left⟩⟩
    | some call =>
      rw [hcall] at hshift
      obtain ⟨hcall', hpos, hin⟩ := nextCall_eq_some hcall
      have hin' := (nextCall_eq_some hshift).2.2
      have hsplit : pre ++ xs = pre ++ call.own.buf ++ xs.drop call.len := by
        rw [hcall', Call.own, List.append_assoc, Slice.read_zero, List.take_append_drop]
      by_cases hown : DependsOnOwnBytes env call.topic call.len
      . have hembed := hown mods pre call.own.buf (xs.drop call.len) (Call.length_own hin)
        have hmods : call.mods = mods := by rw [hcall']
        rw [← hsplit, ← hmods] at hembed
        have hhandle : handle env { call with buf := pre ++ xs, pos := pre.length }
            = (handle env call.own).embed pre (xs.drop call.len) := hembed
        cases hrc : (handle env call.own).rc with
        | error e =>
          have hstop : (frames env).next mods xs = .stop call.key e (handle env call.own).mods := by
            simp only [frames, nextFrame, hcall, hrc]
          have hrc' : (handle env { call with buf := pre ++ xs, pos := pre.length }).rc = .error e := by
            rw [hhandle]
            exact hrc
          rw [loop_error hshift hrc', FrameParser.run_stop hstop, hhandle]
          exact ⟨rfl, fun _ => ⟨rfl, rfl, rfl, fun h => nomatch h⟩⟩
        | ok m =>
          have hframe : (frames env).next mods xs
              = .frame call.key call.len m (handle env call.own).mods := by
            simp only [frames, nextFrame, hcall, hrc]
          have hrc' : (handle env { call with buf := pre ++ xs, pos := pre.length }).rc = .ok m := by
            rw [hhandle]
            exact hrc
          have hsize := (frames env).size_of_frame hframe
          have hpre : (pre ++ (handle env call.own).buf).length = pre.length + call.len := by
            rw [List.length_append, length_buf_handle env (Call.inRange_own hin),
              Call.length_own hin]
          obtain ⟨hcalls, hsim⟩ := ih (xs.drop call.len).length
            (by rw [List.length_drop]; omega) (handle env call.own).mods
            (pre ++ (handle env call.own).buf) (xs.drop call.len) rfl
          rw [loop_ok hshift hrc', FrameParser.run_frame hframe, hhandle]
          dsimp only [Handled.embed]
          rw [← hpre]
          refine ⟨congrArg (call.key :: ·) hcalls, fun hkeys => ?_⟩
          obtain ⟨hrc'', hposted, hmods', hrest⟩ := hsim fun key hkey =>
            hkeys key (List.mem_cons_of_mem _ hkey)
          exact ⟨hrc'', congrArg (m :: ·) hposted, hmods', hrest⟩
      . obtain ⟨e, he⟩ := handle_of_not_own hin' hown
        obtain ⟨e', he'⟩ := handle_of_not_own (Call.inRange_own hin) hown
        have hstop : (frames env).next mods xs = .stop call.key e' (handle env call.own).mods := by
          simp only [frames, nextFrame, hcall, he']
        rw [loop_error hshift he, FrameParser.run_stop hstop]
        refine ⟨rfl, fun hkeys => ?_⟩
        exact absurd (hkeys call.key (List.mem_singleton_self _)) hown

/-!
### Reads
-/

structure RecvSimulates (l : OnRecv Body)
    (r : FrameParser.Run UInt8 Modifiers (UInt32 × Nat) (BitsMessage Body) Failure) : Prop where
  rc : l.rc = r.rc
  posted : l.posted = r.msgs
  protocol : l.rc = .ok () → l.protocol = ⟨r.rest, r.state⟩

variable (env) in
def AllOwn (keys : List (UInt32 × Nat)) : Prop :=
  ∀ key ∈ keys, DependsOnOwnBytes env key.1 key.2

theorem onRecv_simulates (p : BitsProtocol) {bytes : List UInt8} (hbytes : bytes ≠ []) :
    (onRecv env p bytes).calls.map Call.key
        = ((frames env).run p.mods (p.recvBuf ++ bytes)).keys
      ∧ (AllOwn env ((frames env).run p.mods (p.recvBuf ++ bytes)).keys →
        RecvSimulates (onRecv env p bytes) ((frames env).run p.mods (p.recvBuf ++ bytes))) := by
  obtain ⟨hcalls, hsim⟩ := @loop_simulates _ env p.mods [] (p.recvBuf ++ bytes)
  rw [List.nil_append, List.length_nil] at hcalls hsim
  unfold onRecv
  rw [if_neg hbytes]
  dsimp only
  constructor
  . split <;> exact hcalls
  . intro hown
    obtain ⟨hrc, hposted, hmods, hrest⟩ := hsim hown
    split
    . next e he => exact ⟨he.symm.trans hrc, hposted, fun h => nomatch h⟩
    . next hok =>
      refine ⟨hok.symm.trans hrc, hposted, fun _ => ?_⟩
      rw [hrest hok, hmods]

theorem onRecvAll_simulates (p : BitsProtocol) (chunks : List (List UInt8))
    (hchunks : ∀ chunk ∈ chunks, chunk ≠ [])
    (hown : AllOwn env ((frames env).feed p.mods p.recvBuf chunks).keys) :
    RecvSimulates (onRecvAll env p chunks) ((frames env).feed p.mods p.recvBuf chunks) := by
  induction chunks generalizing p with
  | nil => exact ⟨rfl, rfl, fun _ => rfl⟩
  | cons chunk chunks ih =>
    have hsim := (@onRecv_simulates _ env p chunk (hchunks _ List.mem_cons_self)).2
    unfold onRecvAll
    unfold FrameParser.feed at hown ⊢
    cases hrun : ((frames env).run p.mods (p.recvBuf ++ chunk)).rc with
    | error e =>
      rw [FrameParser.Run.andThen_error hrun] at hown ⊢
      have hrc := (hsim hown).rc.trans hrun
      dsimp only
      rw [hrc]
      exact hsim hown
    | ok u =>
      rw [FrameParser.Run.andThen_ok hrun] at hown ⊢
      obtain ⟨hrc, hposted, hprotocol⟩ := hsim fun key hkey =>
        hown key (List.mem_append_left _ hkey)
      have hok := hrc.trans hrun
      have hnext := ih (onRecv env p chunk).protocol
        (fun chunk hchunk => hchunks chunk (List.mem_cons_of_mem _ hchunk))
      rw [hprotocol hok] at hnext
      obtain ⟨hrc', hposted', hprotocol'⟩ := hnext fun key hkey =>
        hown key (List.mem_append_right _ hkey)
      dsimp only
      rw [hok, hprotocol hok, hposted]
      exact ⟨hrc', congrArg _ hposted', hprotocol'⟩

/--
A stream that is cut into packets has the effect of the whole stream.
-/
theorem packetization (env : Env Body) (p : BitsProtocol) (chunks : List (List UInt8))
    (hne : chunks ≠ []) (hchunks : ∀ chunk ∈ chunks, chunk ≠ [])
    (hown : ∀ call ∈ (onRecv env p chunks.flatten).calls,
      DependsOnOwnBytes env call.topic call.len) :
    (onRecvAll env p chunks).rc = (onRecv env p chunks.flatten).rc
      ∧ (onRecvAll env p chunks).posted = (onRecv env p chunks.flatten).posted
      ∧ ((onRecv env p chunks.flatten).rc = .ok () →
        (onRecvAll env p chunks).protocol = (onRecv env p chunks.flatten).protocol) := by
  cases chunks with
  | nil => contradiction
  | cons chunk chunks =>
    have hflatten : (chunk :: chunks).flatten ≠ [] := by
      intro h
      rw [List.flatten_cons, List.append_eq_nil_iff] at h
      exact hchunks chunk List.mem_cons_self h.1
    obtain ⟨hcalls, hwhole⟩ := @onRecv_simulates _ env p _ hflatten
    have hall : AllOwn env ((frames env).run p.mods (p.recvBuf ++ (chunk :: chunks).flatten)).keys := by
      intro key hkey
      rw [← hcalls] at hkey
      obtain ⟨call, hcall, rfl⟩ := List.mem_map.mp hkey
      exact hown call hcall
    have hagree := (frames env).feed_cons p.mods p.recvBuf chunk chunks
    have hparts := onRecvAll_simulates p (chunk :: chunks) hchunks (hagree.keys ▸ hall)
    obtain ⟨hrc, hposted, hprotocol⟩ := hwhole hall
    refine ⟨?_, ?_, ?_⟩
    . exact hparts.rc.trans (hagree.rc.trans hrc.symm)
    . exact hparts.posted.trans (hagree.msgs.trans hposted.symm)
    . intro hok
      have hrun := hrc.symm.trans hok
      have hfeed := hagree.rc.trans hrun
      rw [hprotocol hok, hparts.protocol (hparts.rc.trans hfeed), hagree.state, hagree.rest hfeed]

theorem packetization_plain :
    let env := Env.single 1 {}
    let chunks := [[9, 0, 0], [0, 1, 0, 0, 0, 7, 9], [0]]
    (onRecvAll env onBind chunks).rc = (onRecv env onBind chunks.flatten).rc
      ∧ (onRecvAll env onBind chunks).posted = (onRecv env onBind chunks.flatten).posted
      ∧ ((onRecv env onBind chunks.flatten).rc = .ok () →
        (onRecvAll env onBind chunks).protocol = (onRecv env onBind chunks.flatten).protocol) := by
  refine packetization (Env.single 1 {}) onBind _ (by decide) (by decide) ?_
  intro call _
  apply dependsOnOwnBytes_of_sequence
  intro flags hcreate
  simp only [Env.single] at hcreate ⊢
  split at hcreate
  . injection hcreate with hcreate
    subst hcreate
    intro h
    contradiction
  . contradiction

end BitsProtocol

end Lax
