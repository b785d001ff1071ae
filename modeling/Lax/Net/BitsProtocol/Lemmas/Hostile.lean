import Lax.Net.BitsProtocol.Lemmas.Packetization

/-!
This module contains what the receive path does with frames that no sender has sealed. The peer
chooses all of the bytes, so the length of a frame is whatever the peer says.
-/

namespace Lax

open BlockMode

variable {Body : UInt32 → Type}

namespace BitsProtocol

theorem Call.split {call : Call} (hin : InRange call.buf call.pos call.len) :
    ∃ pre post, call.buf = pre ++ call.own.buf ++ post ∧ pre.length = call.pos := by
  have hrange : call.pos + call.len ≤ call.buf.length := hin
  refine ⟨call.buf.take call.pos, call.buf.drop (call.pos + call.len), ?_, ?_⟩
  . exact Slice.split call.buf call.pos call.len
  . rw [List.length_take]
    omega

def Call.body (call : Call) : List UInt8 :=
  call.own.buf.drop headerLength

section

variable (env : Env Body) (flags : Flags) (call : Call)

def cipherOn : Bool :=
  env.cfg.enableCipher && flags.enableCipher

def checksumOn : Bool :=
  env.cfg.enableChecksum && flags.enableChecksum

def sequenceOn : Bool :=
  env.cfg.enableSequence && flags.enableSequence

def afterCipher : Received Modifiers :=
  Modifiers.afterCipher env.lib env.cfg flags call.mods call.buf call.pos call.len

def afterChecksum : Received Modifiers :=
  Modifiers.afterChecksum env.lib env.cfg flags call.mods call.buf call.pos call.len

def recvModified : Received Modifiers :=
  Modifiers.recvModified env.lib env.cfg flags call.mods call.buf call.pos call.len

-- Some modifier, or `unpack`, gets less than it needs. A header alone has no checksum.
def TooShort : Prop :=
  call.len < headerLength
    ∨ checksumOn env flags = true
      ∧ (∃ n, (afterCipher env flags call).rc = .ok n ∧ n ≠ headerLength
        ∧ n < checksumSize + headerLength)
    ∨ sequenceOn env flags = true
      ∧ ∃ n, (afterChecksum env flags call).rc = .ok n ∧ n < headerLength + sequenceSize

def Misaligned : Prop :=
  cipherOn env flags = true ∧ (call.len - headerLength) % blockSize ≠ 0

structure Safe : Prop where
  events : ∀ e ∈ (recvModified env flags call).trace, e.Ok call.pos call.len
  reported : TooShort env flags call ∨ Misaligned env flags call →
    ∃ reason, (handle env call).rc = .error (.result reason)

-- The length of the frame as far as it decrypts.
def plainLength : Option Nat :=
  if cipherOn env flags then
    Cipher.plainLength env.lib call.mods.cipher.receiver call.body
  else
    some call.len

structure Admissible : Prop where
  cipher : cipherOn env flags = true →
    headerLength ≤ call.len ∧ (call.len - headerLength) % blockSize = 0
  checksum : checksumOn env flags = true → ∀ n, plainLength env flags call = some n →
    n = headerLength ∨ checksumSize + headerLength ≤ n
  sequence : sequenceOn env flags = true → cipherOn env flags = false →
    checksumOn env flags = false → 0 < call.len

end

variable {env : Env Body} {flags : Flags} {call : Call}

theorem rc_afterCipher_own (hin : InRange call.buf call.pos call.len) :
    (afterCipher env flags call).rc = (afterCipher env flags call.own).rc := by
  obtain ⟨pre, post, hbuf, hpos⟩ := Call.split hin
  unfold afterCipher
  rw [hbuf, ← hpos, Modifiers.afterCipher_embed call.mods pre call.own.buf post call.len
    (Nat.le_of_eq (Call.length_own hin).symm)]
  rfl

theorem rc_afterChecksum_own (hin : InRange call.buf call.pos call.len) :
    (afterChecksum env flags call).rc = (afterChecksum env flags call.own).rc := by
  obtain ⟨pre, post, hbuf, hpos⟩ := Call.split hin
  unfold afterChecksum
  rw [hbuf, ← hpos, Modifiers.afterChecksum_embed call.mods pre call.own.buf post call.len
    (Nat.le_of_eq (Call.length_own hin).symm)]
  rfl

-- A frame that is large enough for the cipher gets to the checksum with its plain length.
theorem rc_afterCipher_iff (hin : InRange call.buf call.pos call.len)
    (hcipher : cipherOn env flags = true →
      headerLength ≤ call.len ∧ (call.len - headerLength) % blockSize = 0) (n : Nat) :
    (afterCipher env flags call).rc = .ok n ↔ plainLength env flags call = some n := by
  rw [rc_afterCipher_own hin]
  unfold afterCipher plainLength cipherOn at *
  unfold Modifiers.afterCipher
  cases henabled : env.cfg.enableCipher && flags.enableCipher with
  | false =>
    rw [Received.andThen_false]
    simp [Received.start, Call.own]
  | true =>
    obtain ⟨hlen, hmod⟩ := hcipher henabled
    have hown := Call.length_own hin
    have hhdr : (call.own.buf.take headerLength).length = headerLength := by
      rw [List.length_take]
      omega
    have hbody : headerLength + call.body.length = call.len := by
      unfold Call.body
      rw [List.length_drop]
      omega
    have hiff := Cipher.onRecv_eq_ok_iff env.lib env.cfg call.mods.cipher.receiver hhdr
      (by rw [← hmod, ← hbody, Nat.add_sub_cancel_left]) n
    rw [hbody, Call.body, List.take_append_drop] at hiff
    rw [Received.andThen_true rfl]
    exact hiff

/-!
### Unsafe frames
-/

theorem handle_of_error {e : Failure} (hcreate : env.create call.topic = some flags)
    (h : (recvModified env flags call).rc = .error e) : (handle env call).rc = .error e := by
  unfold recvModified at h
  unfold handle
  rw [hcreate]
  dsimp only
  rw [h]

theorem Safe.cipher (hcreate : env.create call.topic = some flags) (hsafe : Safe env flags call)
    (hon : cipherOn env flags = true) :
    headerLength ≤ call.len ∧ (call.len - headerLength) % blockSize = 0 := by
  have hreceived : ∀ h : call.len < headerLength ∨ (call.len - headerLength) % blockSize ≠ 0,
      (recvModified env flags call).rc = .error .exception
        ∧ .subtract call.len headerLength ∈ (recvModified env flags call).trace := by
    intro h
    have hcipher := Cipher.onRecv_of_misaligned env.lib env.cfg call.mods.cipher.receiver call.buf
      call.pos call.len h
    have hafter : Modifiers.afterCipher env.lib env.cfg flags call.mods call.buf call.pos call.len
        = ⟨.error .exception, call.buf, call.mods, [.subtract call.len headerLength,
          .subtract (sizeSub call.len headerLength) blockSize]⟩ := by
      unfold cipherOn at hon
      unfold Modifiers.afterCipher Modifiers.recvCipher
      rw [hon, Received.andThen_true rfl]
      dsimp only [Received.start]
      rw [hcipher]
      rfl
    unfold recvModified
    rw [Modifiers.recvModified_eq, Modifiers.afterChecksum, hafter, Received.andThen_error rfl,
      Received.andThen_error rfl]
    exact ⟨rfl, List.mem_cons_self⟩
  have hlen : headerLength ≤ call.len := by
    by_cases hlt : call.len < headerLength
    . exact hsafe.events _ (hreceived (Or.inl hlt)).2
    . omega
  refine ⟨hlen, Decidable.byContradiction fun hmod => ?_⟩
  obtain ⟨reason, hreason⟩ := hsafe.reported (Or.inr ⟨hon, hmod⟩)
  rw [handle_of_error hcreate (hreceived (Or.inr hmod)).1] at hreason
  cases hreason

theorem Safe.checksum (hin : InRange call.buf call.pos call.len)
    (hcreate : env.create call.topic = some flags) (hsafe : Safe env flags call)
    (hon : checksumOn env flags = true) {n : Nat} (hn : plainLength env flags call = some n) :
    n = headerLength ∨ checksumSize + headerLength ≤ n := by
  have hrc := (rc_afterCipher_iff hin (hsafe.cipher hcreate) n).mpr hn
  apply Decidable.byContradiction
  intro h
  rw [not_or] at h
  have hfault : (recvModified env flags call).rc = .error .fault := by
    have hchecksum := Checksum.onRecv_of_lt env.lib (afterCipher env flags call).buf call.pos n h.1
      (by omega)
    have hafter : (Modifiers.afterChecksum env.lib env.cfg flags call.mods call.buf call.pos
        call.len).rc = .error .fault := by
      unfold checksumOn at hon
      unfold afterCipher at hrc
      unfold Modifiers.afterChecksum
      rw [hon, Received.andThen_true hrc]
      exact hchecksum
    unfold recvModified
    rw [Modifiers.recvModified_eq, Received.andThen_error hafter]
    exact hafter
  obtain ⟨reason, hreason⟩ := hsafe.reported
    (Or.inl (Or.inr (Or.inl ⟨hon, n, hrc, h.1, by omega⟩)))
  rw [handle_of_error hcreate hfault] at hreason
  cases hreason

theorem Safe.sequence (hsafe : Safe env flags call) (hon : sequenceOn env flags = true)
    (hcipher : cipherOn env flags = false) (hchecksum : checksumOn env flags = false) :
    0 < call.len := by
  have hmem : .access (sizeSub (call.pos + call.len) sequenceSize) sequenceSize
      ∈ (recvModified env flags call).trace := by
    have hsequence := call.mods.sequencer.mem_trace_onRecv call.buf call.pos call.len
    unfold sequenceOn at hon
    unfold cipherOn at hcipher
    unfold checksumOn at hchecksum
    unfold recvModified
    rw [Modifiers.recvModified_eq, Modifiers.afterChecksum, Modifiers.afterCipher, hcipher,
      hchecksum, hon, Received.andThen_false, Received.andThen_false, Received.andThen_true rfl]
    exact hsequence
  have hok := hsafe.events _ hmem
  have hsize : sequenceSize = 1 := rfl
  unfold Event.Ok at hok
  omega

/-!
### Safe frames
-/

theorem Admissible.pos (h : Admissible env flags call) (hon : sequenceOn env flags = true) :
    0 < call.len := by
  have hheader : headerLength = 8 := rfl
  cases hcipher : cipherOn env flags with
  | true =>
    have := (h.cipher hcipher).1
    omega
  | false =>
    cases hchecksum : checksumOn env flags with
    | true =>
      have := h.checksum hchecksum call.len (by simp [plainLength, hcipher])
      omega
    | false => exact h.sequence hon hcipher hchecksum

theorem recvModified_own (hin : InRange call.buf call.pos call.len)
    (hpos : sequenceOn env flags = true → 0 < call.len) :
    ∃ pre post, pre.length = call.pos
      ∧ recvModified env flags call = (recvModified env flags call.own).embed pre post := by
  obtain ⟨pre, post, hbuf, hlen⟩ := Call.split hin
  refine ⟨pre, post, hlen, ?_⟩
  unfold recvModified
  rw [hbuf, ← hlen, Modifiers.recvModified_embed call.mods pre call.own.buf post call.len hpos
    (Nat.le_of_eq (Call.length_own hin).symm)]
  rfl

theorem Admissible.events (hin : InRange call.buf call.pos call.len)
    (h : Admissible env flags call) :
    ∀ e ∈ (recvModified env flags call).trace, e.Ok call.pos call.len := by
  obtain ⟨pre, post, hlen, heq⟩ := recvModified_own hin h.pos
  have hle := Nat.le_of_eq (Call.length_own hin).symm
  have hown : ∀ e ∈ (recvModified env flags call.own).trace, e.Ok 0 call.len := by
    unfold recvModified
    rw [Modifiers.recvModified_eq]
    apply Received.forall_mem_trace_andThen
    . apply Received.forall_mem_trace_andThen
      . apply Received.forall_mem_trace_andThen
        . intro e he
          cases he
        . intro n hon hrc
          injection hrc with hrc
          subst hrc
          obtain ⟨hge, hmod⟩ := h.cipher hon
          exact Cipher.ok_of_mem_trace env.lib env.cfg call.mods.cipher.receiver hle hge hmod
      . intro n hon hrc e he
        have hn := (rc_afterCipher_iff hin h.cipher n).mp ((rc_afterCipher_own hin).trans hrc)
        have hok := Checksum.ok_of_mem_trace env.lib (h.checksum hon n hn) e he
        exact hok.mono (Modifiers.afterCipher_eq_ok hle hrc).1
    . intro n hon hrc e he
      have hpos := h.pos hon
      have hn := Modifiers.afterChecksum_eq_ok hle hrc
      have hheader : headerLength = 8 := rfl
      exact (Sequencer.ok_of_mem_trace _ (by omega) e he).mono hn.1
  rw [heq]
  intro e he
  obtain ⟨e', he', rfl⟩ := List.mem_map.mp he
  rw [← hlen]
  exact (Event.ok_shift pre.length call.len e').mpr (hown e' he')

-- The sequencer refuses a frame that is too short for it, and leaves one that is just long enough
-- shorter than a header.
theorem received_of_short (hin : InRange call.buf call.pos call.len)
    (hpos : sequenceOn env flags = true → 0 < call.len) {n : Nat}
    (hrc : (afterChecksum env flags call).rc = .ok n)
    (hn : if sequenceOn env flags then n < headerLength + sequenceSize else n < headerLength) :
    (∃ reason, (recvModified env flags call).rc = .error (.result reason))
      ∨ ∃ n', (recvModified env flags call).rc = .ok n' ∧ n' < headerLength := by
  have hsize : sequenceSize = 1 := rfl
  have hheader : headerLength = 8 := rfl
  have hle := Nat.le_of_eq (Call.length_own hin).symm
  rw [rc_afterChecksum_own hin] at hrc
  unfold afterChecksum at hrc
  obtain ⟨pre, post, -, heq⟩ := recvModified_own hin hpos
  rw [heq, Received.rc_embed]
  unfold recvModified
  rw [Modifiers.recvModified_eq]
  cases hon : env.cfg.enableSequence && flags.enableSequence with
  | false =>
    unfold sequenceOn at hn
    rw [hon, if_neg (by decide)] at hn
    rw [Received.andThen_false]
    exact Or.inr ⟨n, hrc, hn⟩
  | true =>
    unfold sequenceOn at hn hpos
    rw [hon, if_pos rfl] at hn
    have hlen := Modifiers.afterChecksum_eq_ok hle hrc
    have hbuf := @Modifiers.length_buf_afterCipher env.lib env.cfg flags call.mods _ _ hle
    have hpos' := hpos hon
    rw [Received.andThen_true hrc]
    unfold Modifiers.recvSequence
    dsimp only [Received.rc_map]
    generalize hseq : Sequencer.onRecv _ _ _ _ = r
    cases hr : r.rc with
    | error e =>
      rw [← hseq] at hr
      have hlen' := Nat.le_trans hlen.1 (Nat.le_trans hle (Nat.le_of_eq hbuf.symm))
      have := Sequencer.result_of_onRecv _ (by omega) (by rw [Modifiers.buf_afterChecksum]; exact hlen')
        hr
      exact Or.inl ⟨_, congrArg _ this⟩
    | ok n' =>
      rw [← hseq] at hr
      have := Sequencer.onRecv_eq_ok _ hr
      rw [sizeSub_of_le (by omega)] at this
      exact Or.inr ⟨n', rfl, by omega⟩

theorem result_of_short (hin : InRange call.buf call.pos call.len)
    (hcreate : env.create call.topic = some flags)
    (hpos : sequenceOn env flags = true → 0 < call.len) {n : Nat}
    (hrc : (afterChecksum env flags call).rc = .ok n)
    (hn : if sequenceOn env flags then n < headerLength + sequenceSize else n < headerLength) :
    ∃ reason, (handle env call).rc = .error (.result reason) := by
  rcases received_of_short hin hpos hrc hn with ⟨reason, herror⟩ | ⟨n', hok, hlt⟩
  . exact ⟨reason, handle_of_error hcreate herror⟩
  . refine ⟨.failBitsUnpackError, ?_⟩
    unfold recvModified at hok
    unfold handle
    rw [hcreate]
    dsimp only
    rw [hok]
    dsimp only
    split
    . rfl
    . next m hunpack =>
      have := unpack_eq_some hunpack
      omega

theorem Admissible.reported (hin : InRange call.buf call.pos call.len)
    (hcreate : env.create call.topic = some flags) (h : Admissible env flags call)
    (hbad : TooShort env flags call ∨ Misaligned env flags call) :
    ∃ reason, (handle env call).rc = .error (.result reason) := by
  rcases hbad with (hlt | ⟨hon, n, hrc, hne, hlt⟩ | ⟨hon, n, hrc, hlt⟩) | ⟨hon, hmod⟩
  . have hcipher : cipherOn env flags = false := by
      cases hcipher : cipherOn env flags with
      | false => rfl
      | true =>
        have := (h.cipher hcipher).1
        omega
    have hchecksum : checksumOn env flags = false := by
      cases hchecksum : checksumOn env flags with
      | false => rfl
      | true =>
        have := h.checksum hchecksum call.len (by simp [plainLength, hcipher])
        omega
    have hrc : (afterChecksum env flags call).rc = .ok call.len := by
      unfold cipherOn at hcipher
      unfold checksumOn at hchecksum
      unfold afterChecksum Modifiers.afterChecksum Modifiers.afterCipher
      rw [hcipher, hchecksum, Received.andThen_false, Received.andThen_false]
      rfl
    refine result_of_short hin hcreate h.pos hrc ?_
    split <;> omega
  . have := h.checksum hon n ((rc_afterCipher_iff hin h.cipher n).mp hrc)
    omega
  . refine result_of_short hin hcreate h.pos hrc ?_
    rw [hon]
    exact hlt
  . exact absurd (h.cipher hon).2 hmod

theorem safe_iff_admissible (hin : InRange call.buf call.pos call.len)
    (hcreate : env.create call.topic = some flags) :
    Safe env flags call ↔ Admissible env flags call := by
  constructor
  . intro h
    exact ⟨h.cipher hcreate, fun hon n hn => h.checksum hin hcreate hon hn, h.sequence⟩
  . intro h
    exact ⟨h.events hin, h.reported hin hcreate⟩

/-!
### Runs
-/

theorem inRange_of_mem_loop (mods : Modifiers) (buf : List UInt8) (pos : Nat) :
    ∀ call ∈ (loop env mods buf pos).calls, InRange call.buf call.pos call.len := by
  fun_induction loop env mods buf pos with
  | case1 =>
    intro call h
    cases h
  | case2 mods buf pos call hcall handled e hrc =>
    intro call' h
    rw [List.mem_singleton.mp h]
    exact (nextCall_eq_some hcall).2.2
  | case3 mods buf pos call hcall handled m hrc rest ih =>
    dsimp only
    rw [List.forall_mem_cons]
    exact ⟨(nextCall_eq_some hcall).2.2, ih⟩

theorem inRange_of_mem_onRecvAll (p : BitsProtocol) (chunks : List (List UInt8)) :
    ∀ call ∈ (onRecvAll env p chunks).calls, InRange call.buf call.pos call.len := by
  have hrecv : ∀ (p : BitsProtocol) (bytes : List UInt8),
      ∀ call ∈ (onRecv env p bytes).calls, InRange call.buf call.pos call.len := by
    intro p bytes call h
    unfold onRecv at h
    split at h
    . cases h
    . dsimp only at h
      split at h <;> exact inRange_of_mem_loop _ _ _ call h
  induction chunks generalizing p with
  | nil =>
    intro call h
    cases h
  | cons bytes chunks ih =>
    intro call h
    unfold onRecvAll at h
    dsimp only at h
    split at h
    . exact hrecv p bytes call h
    . rcases List.mem_append.mp h with h | h
      . exact hrecv p bytes call h
      . exact ih _ call h

/--
A frame of any stream is read within its bounds just if no modifier gets less than it needs.
-/
theorem onRecvAll_safe_iff (env : Env Body) (chunks : List (List UInt8)) (call : Call)
    (hcall : call ∈ (onRecvAll env onBind chunks).calls) (flags : Flags)
    (hcreate : env.create call.topic = some flags) :
    Safe env flags call ↔ Admissible env flags call :=
  safe_iff_admissible (inRange_of_mem_onRecvAll onBind chunks call hcall) hcreate

theorem mem_calls_of_error {p : BitsProtocol} {bytes : List UInt8} {call : Call} {e : Failure}
    (hbytes : bytes ≠ []) (hcall : nextCall p.mods (p.recvBuf ++ bytes) 0 = some call)
    (hrc : (handle env call).rc = .error e) : call ∈ (onRecvAll env p [bytes]).calls := by
  have hloop := loop_error hcall hrc
  unfold onRecvAll onRecv
  rw [if_neg hbytes, hloop]
  exact List.mem_singleton_self _

theorem onRecvAll_safe_iff_short :
    Safe (Env.single 1 { enableSequence := true }) { enableSequence := true }
      ⟨1, Modifiers.onBind, [9, 0, 0, 0, 1, 0, 0, 0, 1], 0, 9⟩ :=
  (onRecvAll_safe_iff (Env.single 1 { enableSequence := true }) [[9, 0, 0, 0, 1, 0, 0, 0, 1]] _
    (mem_calls_of_error (by decide) rfl rfl) _ rfl).mpr
    ⟨(nomatch ·), (nomatch ·), fun _ _ _ => by decide⟩

-- A frame of length 0: the sequencer looks before it.
theorem not_safe_zero_length :
    let env := Env.single 1 { enableSequence := true }
    let bytes := [0, 0, 0, 0, 1, 0, 0, 0, 7]
    let call : Call := ⟨1, Modifiers.onBind, bytes, 0, 0⟩
    call ∈ (onRecvAll env onBind [bytes]).calls
      ∧ env.create call.topic = some { enableSequence := true }
      ∧ (handle env call).rc = .error .fault
      ∧ ¬Safe env { enableSequence := true } call := by
  refine ⟨mem_calls_of_error (by decide) rfl rfl, rfl, rfl, ?_⟩
  intro h
  exact Nat.lt_irrefl 0 (h.sequence rfl rfl rfl)

end BitsProtocol

end Lax
