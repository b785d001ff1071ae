import Lax.Foundation.Threads
import Lax.Net.Session.Impl.Session

/-!
This module contains everything that a step of a session can do.
-/

namespace Lax
namespace Session

variable {Tid : Type} [DecidableEq Tid] (length : Nat)

-- `t` goes from one place to the other and leaves this state behind, the place of `t` apart.
inductive Move (s : State Tid) (t : Tid) : Event Tid → Pc → Pc → State Tid → Prop
  | send {data : List UInt8} : Move s t (.send t data) .idle (.sending data) s
  | close : Move s t (.close t) .idle .closing s
  | readDone {ok : Bool} (hpos : 0 < s.reading) :
    Move s t (.readDone t ok) .idle (.recvCompleted ok) { s with reading := s.reading - 1 }
  | writeDone {i : Nat} {ok : Bool} (hlt : i < s.writes.length)
    (hdone : ok = true → s.writes[i]? = some []) :
    Move s t (.writeDone t i ok) .idle (.sendCompleted ok) { s with writes := s.writes.eraseIdx i }
  | allow {ok : Bool} {data : List UInt8} (hopen : s.isOpen = true) :
    Move s t (.next t ok) (.sending data) (.appending data) s
  | refuse {ok : Bool} {data : List UInt8} (hopen : s.isOpen = false) :
    Move s t (.next t ok) (.sending data) .idle s
  | append {ok : Bool} {data : List UInt8} {b : SegmentBuffer}
    (happend : s.sendBuffer.append length data = some b) :
    Move s t (.next t ok) (.appending data) (.requestSend false)
      { s with sendBuffer := b, appended := s.appended ++ [data] }
  | requestSend {ok handler : Bool} (hopen : s.isOpen = true) :
    Move s t (.next t ok) (.requestSend handler) (.checkSend handler) s
  | sendClosed {ok handler : Bool} (hopen : s.isOpen = false) :
    Move s t (.next t ok) (.requestSend handler) .idle s
  | alreadySending {ok handler : Bool} (hsending : s.sending = true) :
    Move s t (.next t ok) (.checkSend handler) .idle s
  | noData {ok handler : Bool} (hsending : s.sending = false) (hsize : s.sendBuffer.size = 0) :
    Move s t (.next t ok) (.checkSend handler) .idle s
  | claimSend {ok handler : Bool} (hsending : s.sending = false) (hsize : s.sendBuffer.size ≠ 0) :
    Move s t (.next t ok) (.checkSend handler) (.transfer handler) { s with sending := true }
  | transfer {ok handler : Bool} :
    Move s t (.next t ok) (.transfer handler) (.startWrite handler)
      {
        s with
        sendBuffer := (s.sendBuffer.transfer length).2
        sendingSegs := (s.sendBuffer.transfer length).1
        handed := false
      }
  | startWrite {ok handler : Bool} :
    Move s t (.next t ok) (.startWrite handler) .idle
      { s with writes := s.writes ++ [s.sendingSegs.flatten], handed := true }
  | recvFailed {ok : Bool} :
    Move s t (.next t ok) (.recvCompleted false) .closing { s with recving := false }
  | recvDone {ok : Bool} :
    Move s t (.next t ok) (.recvCompleted true) .parsing { s with recving := false }
  | parsed : Move s t (.next t true) .parsing .requestRecv s
  | notParsed : Move s t (.next t false) .parsing .closing s
  | requestRecv {ok : Bool} (hopen : s.isOpen = true) :
    Move s t (.next t ok) .requestRecv .checkRecv s
  | recvClosed {ok : Bool} (hopen : s.isOpen = false) :
    Move s t (.next t ok) .requestRecv .idle s
  | alreadyRecving {ok : Bool} (hrecving : s.recving = true) :
    Move s t (.next t ok) .checkRecv .idle s
  | claimRecv {ok : Bool} (hrecving : s.recving = false) :
    Move s t (.next t ok) .checkRecv .startRead { s with recving := true }
  | startRead {ok : Bool} :
    Move s t (.next t ok) .startRead .idle { s with reading := s.reading + 1 }
  | release {ok ok' : Bool} :
    Move s t (.next t ok) (.sendCompleted ok') (.released ok') { s with sendingSegs := [] }
  | sendFailed {ok : Bool} :
    Move s t (.next t ok) (.released false) .closing { s with sending := false }
  | sendDone {ok : Bool} :
    Move s t (.next t ok) (.released true) (.requestSend true) { s with sending := false }
  | alreadyDestroyed {ok : Bool} (hdestroyed : s.destroyed = true) :
    Move s t (.next t ok) .closing .idle s
  | test {ok : Bool} (hdestroyed : s.destroyed = false) :
    Move s t (.next t ok) .closing .shutting s
  | shut {ok : Bool} : Move s t (.next t ok) .shutting .checking { s with isOpen := false }
  | outstanding {ok : Bool} (hbusy : s.sending = true ∨ s.recving = true) :
    Move s t (.next t ok) .checking .idle s
  | pass {ok : Bool} (hsending : s.sending = false) (hrecving : s.recving = false) :
    Move s t (.next t ok) .checking .destroying { s with passed := s.passed + 1 }
  | destroy {ok : Bool} : Move s t (.next t ok) .destroying .notifying { s with destroyed := true }
  | notify {ok : Bool} :
    Move s t (.next t ok) .notifying .idle { s with notified := s.notified + 1 }

def Moved (s s' : State Tid) (e : Event Tid) (t : Tid) (pc : Pc) : Prop :=
  ∃ pc' base, Move length s t e pc pc' base ∧ s' = base.goto t pc'

def Transmitted (s s' : State Tid) (e : Event Tid) : Prop :=
  ∃ i n bytes, e = .transmit i n ∧ s.writes[i]? = some bytes
    ∧ s' = { s with wire := s.wire ++ bytes.take n, writes := s.writes.set i (bytes.drop n) }

variable {length} {s s' : State Tid} {t : Tid} {e : Event Tid}

theorem goto_self (s : State Tid) (t : Tid) (pc : Pc) : (s.goto t pc).threads t = pc :=
  Function.update_self ..

theorem goto_of_ne {t' : Tid} (hne : t' ≠ t) (s : State Tid) (pc : Pc) :
    (s.goto t pc).threads t' = s.threads t' :=
  Function.update_of_ne hne ..

theorem threads_goto {t' : Tid} {pc pc' : Pc} (h : (s.goto t pc').threads t' = pc) :
    t' = t ∧ pc' = pc ∨ t' ≠ t ∧ s.threads t' = pc :=
  Threads.update_cases (· = pc) h

omit [DecidableEq Tid] in
theorem threads_of_move {pc pc' : Pc} {base : State Tid} (h : Move length s t e pc pc' base) :
    base.threads = s.threads := by
  cases h <;> rfl

theorem moved_advance {ok : Bool} {pc : Pc} (hstep : advance length s t ok pc = some s') :
    Moved length s s' (.next t ok) t pc := by
  cases pc with
  | idle => cases hstep
  | sending data =>
    dsimp only [advance] at hstep
    injection hstep with hstep
    subst hstep
    cases hopen : s.isOpen with
    | true => exact ⟨_, _, .allow hopen, rfl⟩
    | false => exact ⟨_, _, .refuse hopen, rfl⟩
  | appending data =>
    obtain ⟨b, happend, hstep⟩ := Option.map_eq_some_iff.mp hstep
    exact ⟨_, _, .append happend, hstep.symm⟩
  | requestSend handler =>
    dsimp only [advance] at hstep
    injection hstep with hstep
    subst hstep
    cases hopen : s.isOpen with
    | true => exact ⟨_, _, .requestSend hopen, rfl⟩
    | false => exact ⟨_, _, .sendClosed hopen, rfl⟩
  | checkSend handler =>
    dsimp only [advance] at hstep
    cases hsending : s.sending with
    | true =>
      rw [hsending, Bool.true_or, if_pos rfl] at hstep
      injection hstep with hstep
      exact ⟨_, _, .alreadySending hsending, hstep.symm⟩
    | false =>
      rw [hsending, Bool.false_or] at hstep
      by_cases hsize : s.sendBuffer.size = 0
      . rw [if_pos (decide_eq_true hsize)] at hstep
        injection hstep with hstep
        exact ⟨_, _, .noData hsending hsize, hstep.symm⟩
      . rw [if_neg (by simpa using hsize)] at hstep
        injection hstep with hstep
        exact ⟨_, _, .claimSend hsending hsize, hstep.symm⟩
  | transfer handler =>
    injection hstep with hstep
    exact ⟨_, _, .transfer, hstep.symm⟩
  | startWrite handler =>
    injection hstep with hstep
    exact ⟨_, _, .startWrite, hstep.symm⟩
  | recvCompleted ok' =>
    injection hstep with hstep
    cases ok' with
    | true => exact ⟨_, _, .recvDone, hstep.symm⟩
    | false => exact ⟨_, _, .recvFailed, hstep.symm⟩
  | parsing =>
    injection hstep with hstep
    cases ok with
    | true => exact ⟨_, _, .parsed, hstep.symm⟩
    | false => exact ⟨_, _, .notParsed, hstep.symm⟩
  | requestRecv =>
    dsimp only [advance] at hstep
    injection hstep with hstep
    subst hstep
    cases hopen : s.isOpen with
    | true => exact ⟨_, _, .requestRecv hopen, rfl⟩
    | false => exact ⟨_, _, .recvClosed hopen, rfl⟩
  | checkRecv =>
    dsimp only [advance] at hstep
    cases hrecving : s.recving with
    | true =>
      rw [hrecving, if_pos rfl] at hstep
      injection hstep with hstep
      exact ⟨_, _, .alreadyRecving hrecving, hstep.symm⟩
    | false =>
      rw [hrecving, if_neg Bool.false_ne_true] at hstep
      injection hstep with hstep
      exact ⟨_, _, .claimRecv hrecving, hstep.symm⟩
  | startRead =>
    injection hstep with hstep
    exact ⟨_, _, .startRead, hstep.symm⟩
  | sendCompleted ok' =>
    injection hstep with hstep
    exact ⟨_, _, .release, hstep.symm⟩
  | released ok' =>
    injection hstep with hstep
    cases ok' with
    | true => exact ⟨_, _, .sendDone, hstep.symm⟩
    | false => exact ⟨_, _, .sendFailed, hstep.symm⟩
  | closing =>
    dsimp only [advance] at hstep
    injection hstep with hstep
    subst hstep
    cases hdestroyed : s.destroyed with
    | true => exact ⟨_, _, .alreadyDestroyed hdestroyed, rfl⟩
    | false => exact ⟨_, _, .test hdestroyed, rfl⟩
  | shutting =>
    injection hstep with hstep
    exact ⟨_, _, .shut, hstep.symm⟩
  | checking =>
    dsimp only [advance] at hstep
    split at hstep
    . rename_i hbusy
      injection hstep with hstep
      rw [Bool.or_eq_true] at hbusy
      exact ⟨_, _, .outstanding hbusy, hstep.symm⟩
    . rename_i hbusy
      injection hstep with hstep
      rw [Bool.not_eq_true, Bool.or_eq_false_iff] at hbusy
      exact ⟨_, _, .pass hbusy.1 hbusy.2, hstep.symm⟩
  | destroying =>
    injection hstep with hstep
    exact ⟨_, _, .destroy, hstep.symm⟩
  | notifying =>
    injection hstep with hstep
    exact ⟨_, _, .notify, hstep.symm⟩

theorem moved_of_step (hstep : step length s e = some s') :
    (∃ t, Moved length s s' e t (s.threads t)) ∨ Transmitted s s' e := by
  cases e with
  | send t data =>
    dsimp only [step] at hstep
    split at hstep
    . injection hstep with hstep
      refine Or.inl ⟨t, _, _, ?_, hstep.symm⟩
      rw [‹s.threads t = .idle›]
      exact .send
    . cases hstep
  | close t =>
    dsimp only [step] at hstep
    split at hstep
    . injection hstep with hstep
      refine Or.inl ⟨t, _, _, ?_, hstep.symm⟩
      rw [‹s.threads t = .idle›]
      exact .close
    . cases hstep
  | readDone t ok =>
    dsimp only [step] at hstep
    split at hstep
    . rename_i hready
      injection hstep with hstep
      refine Or.inl ⟨t, _, _, ?_, hstep.symm⟩
      rw [hready.1]
      exact .readDone hready.2
    . cases hstep
  | writeDone t i ok =>
    dsimp only [step] at hstep
    split at hstep
    . rename_i hready
      injection hstep with hstep
      refine Or.inl ⟨t, _, _, ?_, hstep.symm⟩
      rw [hready.1]
      exact .writeDone hready.2.1 hready.2.2
    . cases hstep
  | transmit i n =>
    obtain ⟨bytes, hbytes, hstep⟩ := Option.map_eq_some_iff.mp hstep
    exact Or.inr ⟨i, n, bytes, rfl, hbytes, hstep.symm⟩
  | next t ok => exact Or.inl ⟨t, moved_advance hstep⟩

end Session
end Lax
