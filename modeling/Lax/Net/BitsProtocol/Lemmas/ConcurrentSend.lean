import Lax.Foundation.Threads
import Lax.Net.BitsProtocol.Impl.ConcurrentSend
import Lax.Net.BitsProtocol.Lemmas.Lockstep

/-!
This module contains the order in which threads may take their steps so that the receiver can follow
them, and the proof that it follows them then.
-/

namespace Lax
namespace ConcurrentSend

open Modifiers

variable {Tid : Type} [DecidableEq Tid] (lib : Botan) (cfg : Config)

def Pc.IsHashed : Pc → Prop
  | .hashed .. => True
  | _ => False

-- Nobody enters the cipher while somebody else is between its two sections, and frames are appended
-- in the order of their sequences and in the order in which they have entered the cipher.
def InTurn (s : State Tid) : Event Tid → Prop
  | .hash t => ∀ flags buf, s.threads t = .sequenced flags buf → cipherActive cfg flags buf = true →
    ∀ t', ¬(s.threads t').IsHashed
  | .append t =>
    (t ∈ s.drawn → s.drawn.head? = some t) ∧ (t ∈ s.ciphering → s.ciphering.head? = some t)
  | _ => True

/-!
### The receiver
-/

def receive (receiver : Modifiers) : List Frame → Modifiers
  | [] => receiver
  | frame :: frames =>
    receive (recvModified lib cfg frame.flags receiver frame.bytes 0 frame.bytes.length).state frames

variable {lib cfg}

theorem accepts_append {receiver : Modifiers} {frames : List Frame} {frame : Frame} {finalLen : Nat}
    (h : Accepts lib cfg receiver frames)
    (hrc : (recvModified lib cfg frame.flags (receive lib cfg receiver frames) frame.bytes 0
      frame.bytes.length).rc = .ok finalLen) :
    Accepts lib cfg receiver (frames ++ [frame]) := by
  induction frames generalizing receiver with
  | nil => exact ⟨⟨finalLen, hrc⟩, trivial⟩
  | cons frame' frames ih => exact ⟨h.1, ih h.2 hrc⟩

theorem receive_append (receiver : Modifiers) (frames : List Frame) (frame : Frame) :
    receive lib cfg receiver (frames ++ [frame])
      =
    (recvModified lib cfg frame.flags (receive lib cfg receiver frames) frame.bytes 0
      frame.bytes.length).state := by
  induction frames generalizing receiver with
  | nil => rfl
  | cons frame' frames ih => exact ih _

/-!
### What a thread has in hand
-/

-- The state that a thread has seen, as if it were alone, and the body that it gives to the cipher.
structure Seen where
  mods : Modifiers
  plain : List UInt8

variable (lib cfg) in
def Seen.Plain (seen : Seen) (flags : Flags) : Prop :=
  ∃ body, seen.plain = checked lib cfg flags (sequenced cfg flags seen.mods body)

variable (lib cfg) in
def Holds (seen : Seen) (drawn ciphering : Prop) : Pc → Prop
  | .idle => ¬drawn ∧ ¬ciphering
  | .packed _ buf => ¬drawn ∧ ¬ciphering ∧ headerLength ≤ buf.length
  | .sequenced flags buf =>
    (drawn ↔ (cfg.enableSequence && flags.enableSequence) = true) ∧ ¬ciphering
      ∧ seen.Plain lib cfg flags
      ∧ ∃ hdr, hdr.length = headerLength ∧ buf = hdr ++ seen.plain
  | .hashed flags buf key nonce =>
    (drawn ↔ (cfg.enableSequence && flags.enableSequence) = true) ∧ ciphering
      ∧ (cfg.enableCipher && flags.enableCipher) = true ∧ seen.plain ≠ []
      ∧ key = seen.mods.cipher.sender.key ∧ nonce = seen.mods.cipher.sender.nonce
      ∧ seen.Plain lib cfg flags
      ∧ ∃ hdr, hdr.length = headerLength ∧ buf = hdr ++ seen.plain
  | .completed flags frame =>
    (drawn ↔ (cfg.enableSequence && flags.enableSequence) = true)
      ∧ (ciphering ↔ (cfg.enableCipher && flags.enableCipher) = true ∧ seen.plain ≠ [])
      ∧ seen.Plain lib cfg flags
      ∧ ∃ hdr, hdr.length = headerLength
        ∧ frame = hdr ++ ciphered lib cfg flags seen.mods.cipher.sender seen.plain

variable (cfg) in
-- At most one thread is between its two sections, and `last` is what the next thread will see.
structure Sections (threads : Tid → Pc) (sender last : CipherImpl) : Prop where
  hashed : ∀ t, (threads t).IsHashed → sender.complete cfg = last
  quiet : (∀ t, ¬(threads t).IsHashed) → sender = last
  unique : ∀ t t', (threads t).IsHashed → (threads t').IsHashed → t = t'

variable (lib cfg) in
-- `virtual` is a sender that has sent what is on the wire and nothing else.
structure Inv (s : State Tid) (seen : Tid → Seen) (virtual : Modifiers) (last : CipherImpl) :
    Prop where
  holds : ∀ t, Holds lib cfg (seen t) (t ∈ s.drawn) (t ∈ s.ciphering) (s.threads t)
  nodup_drawn : s.drawn.Nodup
  nodup_ciphering : s.ciphering.Nodup
  draws : Handover (fun seen => seen.mods.sequencer.sendSeq) (fun _ seq => seq + 1) seen
    virtual.sequencer.sendSeq s.drawn s.mods.sequencer.sendSeq
  ciphers : Handover (fun seen => seen.mods.cipher.sender)
    (fun seen sender => sender.advance lib cfg seen.plain) seen virtual.cipher.sender s.ciphering
    last
  sections : Sections cfg s.threads s.mods.cipher.sender last
  accepts : Accepts lib cfg onBind s.wire
  inStep : InStep virtual (receive lib cfg onBind s.wire)

theorem inv_init : @Inv Tid lib cfg (machine lib cfg).init (fun _ => ⟨onBind, []⟩) onBind
    Cipher.onBind.sender where
  holds := fun _ => ⟨List.not_mem_nil, List.not_mem_nil⟩
  nodup_drawn := List.nodup_nil
  nodup_ciphering := List.nodup_nil
  draws := rfl
  ciphers := rfl
  sections := ⟨fun _ h => h.elim, fun _ => rfl, fun _ _ h => h.elim⟩
  accepts := trivial
  inStep := inStep_onBind

/-!
### Steps
-/

omit [DecidableEq Tid] in
theorem mem_snoc_of_ne {t t' : Tid} (h : t' ≠ t) (ts : List Tid) : t' ∈ ts ++ [t] ↔ t' ∈ ts := by
  simp [h]

omit [DecidableEq Tid] in
theorem nodup_snoc {t : Tid} {ts : List Tid} (h : ts.Nodup) (ht : t ∉ ts) : (ts ++ [t]).Nodup := by
  rw [List.nodup_append]
  refine ⟨h, by simp, ?_⟩
  intro a ha b hb hab
  rw [List.mem_singleton.mp hb] at hab
  exact ht (hab ▸ ha)

variable {s s' : State Tid} {seen seen' : Tid → Seen} {virtual : Modifiers} {last : CipherImpl}
  {t : Tid}

theorem Sections.update {threads : Tid → Pc} {sender : CipherImpl} {pc : Pc}
    (h : Sections cfg threads sender last) (hold : ¬(threads t).IsHashed) (hnew : ¬pc.IsHashed) :
    Sections cfg (Function.update threads t pc) sender last := by
  have hiff : ∀ t', (Function.update threads t pc t').IsHashed ↔ (threads t').IsHashed :=
    Threads.update_iff Pc.IsHashed (iff_of_false hnew hold)
  constructor
  . exact fun t' ht' => h.hashed t' ((hiff t').mp ht')
  . exact fun hno => h.quiet fun t' ht' => hno t' ((hiff t').mpr ht')
  . exact fun t' t'' ht' ht'' => h.unique t' t'' ((hiff t').mp ht') ((hiff t'').mp ht'')

theorem holds_update {drawn ciphering : List Tid} {pc : Pc}
    (h : ∀ t, Holds lib cfg (seen t) (t ∈ s.drawn) (t ∈ s.ciphering) (s.threads t))
    (hseen : ∀ t', t' ≠ t → seen' t' = seen t')
    (hdrawn : ∀ t', t' ≠ t → (t' ∈ drawn ↔ t' ∈ s.drawn))
    (hciphering : ∀ t', t' ≠ t → (t' ∈ ciphering ↔ t' ∈ s.ciphering))
    (ht : Holds lib cfg (seen' t) (t ∈ drawn) (t ∈ ciphering) pc) (t' : Tid) :
    Holds lib cfg (seen' t') (t' ∈ drawn) (t' ∈ ciphering) (Function.update s.threads t pc t') := by
  by_cases hne : t' = t
  . subst hne
    rw [Function.update_self]
    exact ht
  . rw [Function.update_of_ne hne, hseen t' hne, hdrawn t' hne, hciphering t' hne]
    exact h t'

theorem inv_send {flags : Flags} {buf : List UInt8} (h : Inv lib cfg s seen virtual last)
    (hpc : s.threads t = .idle) (hlen : headerLength ≤ buf.length) :
    Inv lib cfg (s.goto t (.packed flags buf)) seen virtual last := by
  have ht := h.holds t
  rw [hpc] at ht
  refine { h with holds := ?_, sections := ?_ }
  . exact holds_update h.holds (fun _ _ => rfl) (fun _ _ => Iff.rfl) (fun _ _ => Iff.rfl)
      ⟨ht.1, ht.2, hlen⟩
  . exact h.sections.update (by rw [hpc]; exact id) id

theorem inv_sequence {flags : Flags} {buf : List UInt8} (h : Inv lib cfg s seen virtual last)
    (hpc : s.threads t = .packed flags buf) (hstep : step lib cfg s (.sequence t) = some s') :
    ∃ seen', Inv lib cfg s' seen' virtual last := by
  have ht := h.holds t
  rw [hpc] at ht
  obtain ⟨hdrawn, hciphering, hlen⟩ := ht
  have hhdr : (buf.take headerLength).length = headerLength := by
    rw [List.length_take, Nat.min_eq_left hlen]
  obtain ⟨hdr₁, hlayer₁, heq₁⟩ := @sendSequence_append cfg flags _ hhdr s.mods
    (buf.drop headerLength)
  obtain ⟨hdr₂, hlayer₂, heq₂⟩ := @sendChecksum_append lib cfg flags _ hlayer₁.length_eq
    (sequenced cfg flags s.mods (buf.drop headerLength))
  rw [List.take_append_drop] at heq₁
  let plain := checked lib cfg flags (sequenced cfg flags s.mods (buf.drop headerLength))
  have hcipher : (sequencedState cfg flags s.mods).cipher = s.mods.cipher := by
    unfold sequencedState
    split <;> rfl
  dsimp only [step] at hstep
  rw [hpc] at hstep
  dsimp only at hstep
  rw [heq₁] at hstep
  dsimp only at hstep
  rw [heq₂] at hstep
  injection hstep with hstep
  subst hstep
  refine ⟨Function.update seen t ⟨s.mods, plain⟩, ?_⟩
  refine { h with holds := ?_, nodup_drawn := ?_, draws := ?_, ciphers := ?_, sections := ?_ }
  . refine holds_update h.holds (fun t' hne => Function.update_of_ne hne _ _) ?_
      (fun _ _ => Iff.rfl) ?_
    . intro t' hne
      dsimp only
      split
      . exact mem_snoc_of_ne hne s.drawn
      . exact Iff.rfl
    . rw [Function.update_self]
      refine ⟨?_, hciphering, ⟨_, rfl⟩, hdr₂, hlayer₂.length_eq, rfl⟩
      dsimp only
      split
      . exact iff_of_true (List.mem_append_right _ List.mem_cons_self) ‹_›
      . exact iff_of_false hdrawn ‹_›
  . dsimp only
    split
    . exact nodup_snoc h.nodup_drawn hdrawn
    . exact h.nodup_drawn
  . have hupdate := @Handover.update_of_not_mem _ _ _ _ _ _ _ _ _ _ _ ⟨s.mods, plain⟩ h.draws hdrawn
    dsimp only [sequencedState]
    split
    . refine hupdate.snoc ?_
      rw [Function.update_self]
    . exact hupdate
  . exact h.ciphers.update_of_not_mem hciphering
  . dsimp only
    rw [hcipher]
    exact h.sections.update (by rw [hpc]; exact id) id

variable (lib cfg) in
theorem cipherActive_append {flags : Flags} {hdr body : List UInt8}
    (hhdr : hdr.length = headerLength) :
    cipherActive cfg flags (hdr ++ body) = true
      ↔
    (cfg.enableCipher && flags.enableCipher) = true ∧ body ≠ [] := by
  unfold cipherActive
  rw [Cipher.sizeSub_length_append hhdr, Bool.and_eq_true, decide_eq_true_iff, ne_eq, ne_eq,
    List.length_eq_zero_iff]

-- The first section of `cipher::on_send`.
theorem inv_enter {flags : Flags} {buf : List UInt8} (h : Inv lib cfg s seen virtual last)
    (hpc : s.threads t = .sequenced flags buf) (hactive : cipherActive cfg flags buf = true)
    (hturn : ∀ t', ¬(s.threads t').IsHashed)
    (hstep : step lib cfg s (.hash t) = some s') :
    ∃ seen' last', Inv lib cfg s' seen' virtual last' := by
  have ht := h.holds t
  rw [hpc] at ht
  obtain ⟨hdrawn, hciphering, hplain, hdr, hhdr, hbuf⟩ := ht
  rw [hbuf, cipherActive_append cfg hhdr] at hactive
  have hlast := h.sections.quiet hturn
  dsimp only [step] at hstep
  rw [hpc] at hstep
  dsimp only at hstep
  rw [hbuf, if_pos ((cipherActive_append cfg hhdr).mpr hactive), padded,
    Cipher.sizeSub_length_append hhdr, Cipher.startSend_eq _ _ _ _ _ hhdr] at hstep
  injection hstep with hstep
  subst hstep
  let mine : Seen := ⟨(seen t).mods.withSender last, (seen t).plain⟩
  refine ⟨Function.update seen t mine, last.advance lib cfg (seen t).plain, ?_⟩
  refine {
    h with
    holds := ?_, nodup_ciphering := ?_, draws := ?_, ciphers := ?_, sections := ?_
  }
  . refine holds_update h.holds (fun t' hne => Function.update_of_ne hne _ _) (fun _ _ => Iff.rfl)
      (fun t' hne => mem_snoc_of_ne hne s.ciphering) ?_
    rw [Function.update_self]
    have hmem : t ∈ s.ciphering ++ [t] := List.mem_append_right _ List.mem_cons_self
    exact ⟨hdrawn, hmem, hactive.1, hactive.2, hlast ▸ rfl, hlast ▸ rfl, hplain, hdr, hhdr, rfl⟩
  . exact nodup_snoc h.nodup_ciphering hciphering
  . exact h.draws.update fun _ => ⟨rfl, rfl⟩
  . have hupdate := @Handover.update_of_not_mem _ _ _ _ _ _ _ _ _ _ _ mine h.ciphers hciphering
    have hsnoc := hupdate.snoc (t := t) (by rw [Function.update_self]; rfl)
    rw [Function.update_self] at hsnoc
    exact hsnoc
  . constructor
    . intro t' _
      dsimp only [Modifiers.withSender]
      rw [hlast]
      rfl
    . intro hno
      refine absurd ?_ (hno t)
      dsimp only [State.goto]
      rw [Function.update_self]
      trivial
    . intro t' t'' ht' ht''
      have heq' := Threads.eq_of_update Pc.IsHashed hturn ht'
      have heq'' := Threads.eq_of_update Pc.IsHashed hturn ht''
      exact heq'.trans heq''.symm

theorem inv_skip {flags : Flags} {buf : List UInt8} (h : Inv lib cfg s seen virtual last)
    (hpc : s.threads t = .sequenced flags buf) (hactive : ¬cipherActive cfg flags buf = true) :
    Inv lib cfg (s.goto t (.completed flags buf)) seen virtual last := by
  have ht := h.holds t
  rw [hpc] at ht
  obtain ⟨hdrawn, hciphering, hplain, hdr, hhdr, hbuf⟩ := ht
  rw [hbuf, cipherActive_append cfg hhdr] at hactive
  refine { h with holds := ?_, sections := ?_ }
  . refine holds_update h.holds (fun _ _ => rfl) (fun _ _ => Iff.rfl) (fun _ _ => Iff.rfl) ?_
    refine ⟨hdrawn, iff_of_false hciphering hactive, hplain, hdr, hhdr, ?_⟩
    rw [hbuf, ciphered, if_neg hactive]
  . exact h.sections.update (by rw [hpc]; exact id) id

-- The second section of `cipher::on_send`.
theorem inv_complete {flags : Flags} {buf key nonce : List UInt8}
    (h : Inv lib cfg s seen virtual last) (hpc : s.threads t = .hashed flags buf key nonce)
    (hstep : step lib cfg s (.complete t) = some s') :
    Inv lib cfg s' seen virtual last := by
  have ht := h.holds t
  rw [hpc] at ht
  obtain ⟨hdrawn, hciphering, hcipher, hne, hkey, hnonce, hplain, hdr, hhdr, hbuf⟩ := ht
  have hhashed : (s.threads t).IsHashed := by
    rw [hpc]
    trivial
  have hlast := h.sections.hashed t hhashed
  let newLen := (hdr ++ (seen t).plain).length + Cipher.padSize (seen t).plain.length
  let frame := stamp hdr newLen ++ BlockMode.encryptMessage lib.aes128
    (seen t).mods.cipher.sender.key (seen t).mods.cipher.sender.nonce (seen t).plain
  dsimp only [step] at hstep
  rw [hpc] at hstep
  dsimp only at hstep
  rw [hbuf, padded, Cipher.sizeSub_length_append hhdr, Cipher.encrypt_eq _ _ _ _ _ hhdr,
    updateLengthField_append _ _ _ hhdr, hkey, hnonce] at hstep
  injection hstep with hstep
  subst hstep
  refine { h with holds := ?_, sections := ?_ }
  . refine holds_update h.holds (fun _ _ => rfl) (fun _ _ => Iff.rfl) (fun _ _ => Iff.rfl) ?_
    refine ⟨hdrawn, iff_of_true hciphering ⟨hcipher, hne⟩, hplain, stamp hdr newLen,
      length_stamp hhdr newLen, ?_⟩
    rw [ciphered, if_pos ⟨hcipher, hne⟩]
  . have hquiet : ∀ t', ¬(Function.update s.threads t (.completed flags frame) t').IsHashed :=
      Threads.not_update Pc.IsHashed id fun t' ht' => h.sections.unique t' t ht' hhashed
    constructor
    . exact fun t' ht' => absurd ht' (hquiet t')
    . exact fun _ => hlast
    . exact fun t' _ ht' => absurd ht' (hquiet t')

theorem sequenced_congr {flags : Flags} {mods mods' : Modifiers} (body : List UInt8)
    (h : (cfg.enableSequence && flags.enableSequence) = true →
      mods.sequencer.sendSeq = mods'.sequencer.sendSeq) :
    sequenced cfg flags mods body = sequenced cfg flags mods' body := by
  unfold sequenced
  split
  . rw [h ‹_›]
  . rfl

theorem ciphered_congr {flags : Flags} {sender sender' : CipherImpl} (body : List UInt8)
    (h : (cfg.enableCipher && flags.enableCipher) = true ∧ body ≠ [] → sender = sender') :
    ciphered lib cfg flags sender body = ciphered lib cfg flags sender' body := by
  unfold ciphered
  split
  . rw [h ‹_›]
  . rfl

theorem inv_append {flags : Flags} {frame : List UInt8} (h : Inv lib cfg s seen virtual last)
    (hpc : s.threads t = .completed flags frame) (hturn : InTurn cfg s (.append t))
    (hstep : step lib cfg s (.append t) = some s') :
    ∃ virtual', Inv lib cfg s' seen virtual' last := by
  have ht := h.holds t
  rw [hpc] at ht
  obtain ⟨hdrawn, hciphering, ⟨body, hplain⟩, hdr, hhdr, hframe⟩ := ht
  have hdraws := h.draws.leave hturn.1
  have hciphers := h.ciphers.leave hturn.2
  have hsequenced : sequenced cfg flags (seen t).mods body = sequenced cfg flags virtual body := by
    refine sequenced_congr body fun henabled => ?_
    obtain ⟨hnot, -⟩ | ⟨-, hseq, -⟩ := hdraws
    . exact absurd (hdrawn.mpr henabled) hnot
    . exact hseq
  have hciphered : ciphered lib cfg flags (seen t).mods.cipher.sender (seen t).plain
      = ciphered lib cfg flags virtual.cipher.sender (seen t).plain := by
    refine ciphered_congr _ fun hactive => ?_
    obtain ⟨hnot, -⟩ | ⟨-, hsender, -⟩ := hciphers
    . exact absurd (hciphering.mpr hactive) hnot
    . exact hsender
  rw [hsequenced] at hplain
  rw [hciphered, hplain] at hframe
  obtain ⟨hrc, hinStep, -⟩ := @recvModified_sealed lib cfg flags hdr hhdr _ _ h.inStep body
  dsimp only [sealedBody] at hrc hinStep
  rw [← hframe] at hrc hinStep
  dsimp only [step] at hstep
  rw [hpc] at hstep
  injection hstep with hstep
  subst hstep
  refine ⟨sealedState lib cfg flags virtual body, ?_⟩
  have hne_mem : ∀ (ts : List Tid), ∀ t', t' ≠ t → (t' ∈ ts.erase t ↔ t' ∈ ts) :=
    fun ts t' hne => List.mem_erase_of_ne hne
  constructor
  . exact holds_update h.holds (fun _ _ => rfl) (hne_mem s.drawn) (hne_mem s.ciphering)
      ⟨h.nodup_drawn.not_mem_erase, h.nodup_ciphering.not_mem_erase⟩
  . exact h.nodup_drawn.erase t
  . exact h.nodup_ciphering.erase t
  . dsimp only [sealedState, sequencedState]
    obtain ⟨hnot, hsame⟩ | ⟨hmem, -, hrest⟩ := hdraws
    . rw [if_neg (fun henabled => hnot (hdrawn.mpr henabled)), hsame]
      exact h.draws
    . rw [if_pos (hdrawn.mp hmem)]
      exact hrest
  . dsimp only [sealedState, cipheredState]
    rw [← hplain]
    obtain ⟨hnot, hsame⟩ | ⟨hmem, -, hrest⟩ := hciphers
    . rw [if_neg (fun hactive => hnot (hciphering.mpr hactive)), hsame]
      exact h.ciphers
    . rw [if_pos (hciphering.mp hmem)]
      exact hrest
  . exact h.sections.update (by rw [hpc]; exact id) id
  . exact accepts_append h.accepts hrc
  . rw [receive_append]
    exact hinStep

theorem inv_step {e : Event Tid} (h : Inv lib cfg s seen virtual last) (hturn : InTurn cfg s e)
    (hstep : step lib cfg s e = some s') :
    ∃ seen' virtual' last', Inv lib cfg s' seen' virtual' last' := by
  cases e with
  | send t flags buf =>
    cases hpc : s.threads t with
    | idle =>
      dsimp only [step] at hstep
      rw [hpc] at hstep
      dsimp only at hstep
      split at hstep
      . injection hstep with hstep
        subst hstep
        exact ⟨_, _, _, inv_send h hpc ‹_›⟩
      . cases hstep
    | _ => simp [step, hpc] at hstep
  | sequence t =>
    cases hpc : s.threads t with
    | packed flags buf =>
      obtain ⟨seen', h'⟩ := inv_sequence h hpc hstep
      exact ⟨_, _, _, h'⟩
    | _ => simp [step, hpc] at hstep
  | hash t =>
    cases hpc : s.threads t with
    | sequenced flags buf =>
      by_cases hactive : cipherActive cfg flags buf = true
      . obtain ⟨seen', last', h'⟩ := inv_enter h hpc hactive (hturn flags buf hpc hactive) hstep
        exact ⟨_, _, _, h'⟩
      . dsimp only [step] at hstep
        rw [hpc] at hstep
        dsimp only at hstep
        rw [if_neg hactive] at hstep
        injection hstep with hstep
        subst hstep
        exact ⟨_, _, _, inv_skip h hpc hactive⟩
    | _ => simp [step, hpc] at hstep
  | complete t =>
    cases hpc : s.threads t with
    | hashed flags buf key nonce => exact ⟨_, _, _, inv_complete h hpc hstep⟩
    | _ => simp [step, hpc] at hstep
  | append t =>
    cases hpc : s.threads t with
    | completed flags frame =>
      obtain ⟨virtual', h'⟩ := inv_append h hpc hturn hstep
      exact ⟨_, _, _, h'⟩
    | _ => simp [step, hpc] at hstep

/--
The receiver accepts the stream if threads append what they have modified in the order in which they
have modified it.
-/
theorem accepts_of_inTurn (lib : Botan) (cfg : Config) (s : State Tid) (es : List (Event Tid))
    (hrun : (machine lib cfg).run (machine lib cfg).init es = some s)
    (hturn : (machine lib cfg).Along (InTurn cfg) (machine lib cfg).init es) :
    Accepts lib cfg onBind s.wire := by
  have hinv : ∃ seen virtual last, Inv lib cfg s seen virtual last := by
    refine Machine.inv_of_along (fun s => ∃ seen virtual last, Inv lib cfg s seen virtual last) ?_
      hrun hturn ⟨_, _, _, inv_init⟩
    intro s e s' ⟨seen, virtual, last, h⟩ hturn hstep
    exact inv_step h hturn hstep
  obtain ⟨_, _, _, h⟩ := hinv
  exact h.accepts

def message : List UInt8 :=
  [9, 0, 0, 0, 1, 0, 0, 0, 7]

-- Both threads have drawn a sequence when the first one appends its frame.
def overlapped (first second : Bool) : List (Event Bool) :=
  [
    .send false { enableSequence := true } message, .send true { enableSequence := true } message,
    .sequence false, .sequence true, .hash false, .hash true, .append first, .append second
  ]

theorem accepts_of_inTurn_overlapped :
    Accepts Botan.inert {} onBind
      [
        ⟨{ enableSequence := true }, [10, 0, 0, 0, 1, 0, 0, 0, 7, 1]⟩,
        ⟨{ enableSequence := true }, [10, 0, 0, 0, 1, 0, 0, 0, 7, 2]⟩
      ] := by
  refine accepts_of_inTurn Botan.inert {} _ (overlapped false true) rfl ?_
  refine Machine.along_cons trivial rfl (Machine.along_cons trivial rfl ?_)
  refine Machine.along_cons trivial rfl (Machine.along_cons trivial rfl ?_)
  refine Machine.along_cons ?_ rfl (Machine.along_cons ?_ rfl ?_)
  . intro flags buf h hactive
    cases h
    cases hactive
  . intro flags buf h hactive
    cases h
    cases hactive
  . refine Machine.along_cons ⟨fun _ => rfl, ?_⟩ rfl (Machine.along_cons ⟨fun _ => rfl, ?_⟩ rfl ?_)
    . exact fun h => nomatch h
    . exact fun h => nomatch h
    . trivial

theorem not_accepts_overtaken :
    ∃ s, (machine Botan.inert {}).run (machine Botan.inert {}).init (overlapped true false) = some s
      ∧ ¬Accepts Botan.inert {} onBind s.wire := by
  refine ⟨_, rfl, ?_⟩
  rintro ⟨⟨finalLen, h⟩, -⟩
  cases h

end ConcurrentSend
end Lax
