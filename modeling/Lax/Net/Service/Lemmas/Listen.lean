import Lax.Net.Service.Impl.Connections
import Lax.Util.Lemmas.Sequence

/-!
This module contains what is left of a call of `listen`. An acceptor that cannot open, bind or listen
reports a reason together with a success, and its caller registers it.
-/

namespace Lax

variable {Ip : Type}

def Asio.Fine (asio : Asio) : Prop :=
  asio.opens = true ∧ asio.binds = true ∧ asio.listens = true

namespace Acceptor

variable {a : Acceptor Ip} {asio : Asio}

-- It is open, bound and listening, and waits for somebody to connect.
structure IsUp (a : Acceptor Ip) : Prop where
  isOpen : a.isOpen = true
  bound : a.bound = true
  listening : a.listening = true
  accepting : a.accepting = true

-- A success of both kinds, a failure of both kinds or one of each.
inductive Outcome (addr : Addr Ip) (asio : Asio) (rc : Result) (a : Acceptor Ip) : Prop where
  | up (hfine : asio.Fine) (hrc : rc = ⟨true, .success⟩) (hup : a.IsUp)
  | invalid (hvalid : addr.isValid = false) (hcode : rc.code = false) (hvalue : rc.value ≠ .success)
    (hup : ¬a.IsUp)
  | half (hvalid : addr.isValid = true) (hfine : ¬asio.Fine) (hcode : rc.code = true)
    (hup : ¬a.IsUp)

theorem outcome_listen (id : Nat) (protocol : String) (addr : Addr Ip) (asio : Asio) :
    Outcome addr asio ((ctor id protocol addr).listen asio).1 ((ctor id protocol addr).listen asio).2
    := by
  obtain ⟨opens, binds, listens⟩ := asio
  unfold listen ctor
  dsimp only
  cases hvalid : addr.isValid with
  | false =>
    apply Outcome.invalid hvalid
    . rfl
    . exact fun h => nomatch h
    . exact fun hup => nomatch hup.accepting
  | true =>
    cases opens with
    | false =>
      apply Outcome.half hvalid
      . exact fun hfine => nomatch hfine.1
      . rfl
      . exact fun hup => nomatch hup.accepting
    | true =>
      cases binds with
      | false =>
        apply Outcome.half hvalid
        . exact fun hfine => nomatch hfine.2.1
        . rfl
        . exact fun hup => nomatch hup.accepting
      | true =>
        cases listens with
        | false =>
          apply Outcome.half hvalid
          . exact fun hfine => nomatch hfine.2.2
          . rfl
          . exact fun hup => nomatch hup.accepting
        | true =>
          apply Outcome.up
          . exact ⟨rfl, rfl, rfl⟩
          . rfl
          . exact ⟨rfl, rfl, rfl, rfl⟩

end Acceptor

namespace Connections

variable {s : Connections Ip} {r : Listened Ip}

-- The acceptor is up, `listen` says so and it is registered and counted; or it is not, `listen` says so
-- and nothing is.
inductive Clean (s : Connections Ip) (r : Listened Ip) : Prop where
  | listening (a : Acceptor Ip) (hacceptor : r.acceptor = some a) (hup : a.IsUp)
    (hrc : r.rc = some ⟨true, .success⟩)
    (hacceptors : r.service.acceptors = put s.acceptors a.id a)
    (hcount : r.service.acceptorCount = s.acceptorCount + 1)
  | failed (hdown : ∀ a, r.acceptor = some a → ¬a.IsUp)
    (hrc : ∀ rc, r.rc = some rc → rc.code = false ∧ rc.value ≠ .success)
    (hacceptors : r.service.acceptors = s.acceptors)
    (hcount : r.service.acceptorCount = s.acceptorCount)

theorem not_clean {a : Acceptor Ip} {rc : Result} (hacceptor : r.acceptor = some a) (hup : ¬a.IsUp)
    (hrc : r.rc = some rc) (hcode : rc.code = true) : ¬Clean s r := by
  intro hclean
  cases hclean with
  | listening a' hacceptor' hup' =>
    rw [hacceptor] at hacceptor'
    injection hacceptor' with heq
    exact hup (heq ▸ hup')
  | failed hdown hrc' =>
    have hfalse := (hrc' rc hrc).1
    rw [hcode] at hfalse
    contradiction

theorem id_listen (a : Acceptor Ip) (asio : Asio) : (a.listen asio).2.id = a.id := by
  unfold Acceptor.listen Acceptor.doAccept
  dsimp only
  repeat' split
  all_goals rfl

variable (fromString : String → Option Ip) (s : Connections Ip) (addr protocol : String)
  (asio : Asio)

theorem clean_of_unknown : Clean s (s.listen fromString addr protocol false asio) := by
  apply Clean.failed
  . exact fun a h => nomatch h
  . intro rc hrc
    injection hrc with hrc
    subst hrc
    exact ⟨rfl, fun h => nomatch h⟩
  . rfl
  . rfl

theorem clean_of_next_eq_none (hnext : s.idGen.next = none) :
    Clean s (s.listen fromString addr protocol true asio) := by
  unfold listen
  rw [if_neg (not_not_intro rfl), hnext]
  apply Clean.failed
  . exact fun a h => nomatch h
  . exact fun rc h => nomatch h
  . rfl
  . rfl

theorem clean_iff_of_next {id : Nat} {idGen : Sequence} (hnext : s.idGen.next = some (id, idGen)) :
    Clean s (s.listen fromString addr protocol true asio)
      ↔ (Addr.ofString fromString addr).isValid = false ∨ asio.Fine := by
  have hid := id_listen (Acceptor.ctor id protocol (Addr.ofString fromString addr)) asio
  have houtcome := Acceptor.outcome_listen id protocol (Addr.ofString fromString addr) asio
  unfold listen
  rw [if_neg (not_not_intro rfl), hnext]
  dsimp only
  generalize (Acceptor.ctor id protocol (Addr.ofString fromString addr)).listen asio = r
    at hid houtcome ⊢
  obtain ⟨rc, a⟩ := r
  dsimp only [Acceptor.ctor] at hid houtcome ⊢
  cases houtcome with
  | up hfine hrc hup =>
    apply iff_of_true
    . rw [hrc, if_pos rfl]
      apply Clean.listening a
      . rfl
      . exact hup
      . rfl
      . rw [hid]
      . rfl
    . exact Or.inr hfine
  | invalid hvalid hcode hvalue hup =>
    apply iff_of_true
    . rw [if_neg (by rw [hcode]; exact Bool.false_ne_true)]
      apply Clean.failed
      . intro a' ha'
        injection ha' with heq
        exact heq ▸ hup
      . intro rc' hrc'
        injection hrc' with heq
        exact heq ▸ ⟨hcode, hvalue⟩
      . rfl
      . rfl
    . exact Or.inl hvalid
  | half hvalid hfine hcode hup =>
    apply iff_of_false
    . rw [if_pos hcode]
      apply not_clean rfl hup rfl hcode
    . rintro (hinvalid | hfine')
      . rw [hvalid] at hinvalid
        contradiction
      . exact hfine hfine'

/--
`listen` is clean exactly when it does not get to the acceptor, the address is not valid or nothing goes
wrong with the acceptor.
-/
theorem clean_iff (known : Bool) :
    Clean s (s.listen fromString addr protocol known asio)
      ↔ known = false ∨ s.idGen.next = none ∨ (Addr.ofString fromString addr).isValid = false
        ∨ (asio.opens = true ∧ asio.binds = true ∧ asio.listens = true) := by
  cases known with
  | false =>
    apply iff_of_true
    . apply clean_of_unknown
    . exact Or.inl rfl
  | true =>
    rw [or_iff_right Bool.true_eq_false.mp]
    cases hnext : s.idGen.next with
    | none =>
      apply iff_of_true
      . apply clean_of_next_eq_none _ _ _ _ _ hnext
      . exact Or.inl rfl
    | some r =>
      rw [clean_iff_of_next fromString s addr protocol asio hnext]
      exact (or_iff_right fun h => nomatch h).symm

theorem exists_next_ctor :
    ∃ id idGen, (ctor : Connections Ip).idGen.next = some (id, idGen) := by
  simp only [ctor]
  apply Sequence.exists_next_ctor
  decide

def everywhere (s : String) : Option Unit :=
  if s = "0.0.0.0" then some () else none

-- The port is in use.
theorem exists_not_clean :
    ¬Clean ctor (ctor.listen everywhere "0.0.0.0:80" "bits" true ⟨true, false, true⟩) := by
  obtain ⟨id, idGen, hnext⟩ := @exists_next_ctor Unit
  have hvalid : (Addr.ofString everywhere "0.0.0.0:80").isValid = true := by decide
  rw [clean_iff_of_next everywhere ctor _ _ _ hnext, hvalid]
  rintro (hinvalid | hfine)
  . cases hinvalid
  . cases hfine.2.1

end Connections
end Lax
