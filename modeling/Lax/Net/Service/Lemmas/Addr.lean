import Mathlib.Data.List.TakeWhile
import Mathlib.Data.Nat.Digits.Defs
import Lax.Net.Service.Impl.Acceptor

/-!
This module contains when an address is what its text says: a port is cut down to 16 bits before anybody
looks at it, and it is read as far as there are digits.
-/

namespace Lax
namespace Addr

variable {Ip : Type} {fromString : String → Option Ip} {s : String} {sip sport : List Char} {ip : Ip}

-- The number that decimal digits stand for.
def value (sport : List Char) : Nat :=
  Nat.ofDigits 10 (sport.reverse.map fun c => c.toNat - 48)

-- `s` is `ip:port`.
def Denotes (fromString : String → Option Ip) (s : String) (ip : Ip) (port : Nat) : Prop :=
  ∃ sip sport, s.toList = sip ++ ':' :: sport ∧ ':' ∉ sip ∧ fromString (String.ofList sip) = some ip
    ∧ sport ≠ [] ∧ (∀ c ∈ sport, c.isDigit) ∧ value sport = port ∧ 1 ≤ port ∧ port ≤ 65535

structure Exact (fromString : String → Option Ip) (s : String) : Prop where
  isValid_iff : (ofString fromString s).isValid = true ↔ ∃ ip port, Denotes fromString s ip port
  endpoint : ∀ ip port, Denotes fromString s ip port →
    ∃ ep, (ofString fromString s).endpoint = some ep ∧ ep.ip = ip ∧ ep.port.toNat = port

/-!
### Numbers
-/

theorem digits_eq (n : Nat) (h : ∀ c ∈ sport, c.isDigit) :
    digits n sport = n * 10 ^ sport.length + value sport := by
  induction sport generalizing n with
  | nil => simp [digits, value]
  | cons c cs ih =>
    rw [List.forall_mem_cons] at h
    unfold digits
    rw [if_pos h.1, ih _ h.2]
    unfold value
    rw [List.reverse_cons, List.map_append, Nat.ofDigits_append]
    simp [pow_succ]
    ring

theorem toNat_of_isDigit {c : Char} (h : c.isDigit) : 48 ≤ c.toNat ∧ c.toNat ≤ 57 := by
  unfold Char.isDigit at h
  rw [Bool.and_eq_true, decide_eq_true_iff, decide_eq_true_iff] at h
  exact ⟨UInt32.le_iff_toNat_le.mp h.1, UInt32.le_iff_toNat_le.mp h.2⟩

theorem isSpace_of_isDigit {c : Char} (h : c.isDigit) : isSpace c = false := by
  have hnat := toNat_of_isDigit h
  unfold isSpace
  rw [Bool.or_eq_false_iff]
  constructor
  . rw [decide_eq_false_iff_not]
    rintro rfl
    contradiction
  . simp
    omega

-- There is nothing to pass over in front of digits, and nothing comes after them.
theorem atoi_eq (h : ∀ c ∈ sport, c.isDigit) : atoi sport = (min (value sport) 2147483647 : Nat) := by
  have hdrop : sport.dropWhile isSpace = sport := by
    cases sport with
    | nil => rfl
    | cons c cs =>
      rw [List.forall_mem_cons] at h
      apply List.dropWhile_cons_of_neg
      rw [isSpace_of_isDigit h.1]
      exact Bool.false_ne_true
  have hdigits := digits_eq 0 h
  rw [Nat.zero_mul, Nat.zero_add] at hdigits
  unfold atoi
  rw [hdrop]
  split
  . exact absurd (h '-' List.mem_cons_self) (by decide)
  . exact absurd (h '+' List.mem_cons_self) (by decide)
  . rw [hdigits]

theorem toNat_toPort (n : Int) : (toPort n).toNat = (n % 65536).toNat := by
  unfold toPort
  rw [UInt16.toNat_ofNat']
  omega

theorem toPort_eq_zero_iff (n : Int) : toPort n = 0 ↔ (65536 : Int) ∣ n := by
  rw [← UInt16.toNat_inj, toNat_toPort]
  simp
  omega

/-!
### The parts of a text
-/

theorem ofString_of_not_mem (h : ':' ∉ s.toList) : (ofString fromString s).endpoint = none := by
  have hdrop : s.toList.dropWhile (· ≠ ':') = [] := by
    rw [List.dropWhile_eq_nil_iff]
    intro c hc
    rw [decide_eq_true_iff]
    exact fun heq => h (heq ▸ hc)
  unfold ofString
  dsimp only
  rw [hdrop]

theorem parts (hs : s.toList = sip ++ ':' :: sport) (hsip : ':' ∉ sip) :
    s.toList.takeWhile (· ≠ ':') = sip ∧ s.toList.dropWhile (· ≠ ':') = ':' :: sport := by
  have hnot : ∀ c ∈ sip, decide (c ≠ ':') = true := by
    intro c hc
    rw [decide_eq_true_iff]
    exact fun heq => hsip (heq ▸ hc)
  rw [hs, List.takeWhile_append_of_pos hnot, List.dropWhile_append_of_pos hnot]
  simp

theorem endpoint_ofString (hs : s.toList = sip ++ ':' :: sport) (hsip : ':' ∉ sip) :
    (ofString fromString s).endpoint
      =
    if toPort (atoi sport) = 0 then
      none
    else
      (fromString (String.ofList sip)).map fun ip => ⟨ip, toPort (atoi sport)⟩ := by
  obtain ⟨htake, hdrop⟩ := parts hs hsip
  unfold ofString
  dsimp only
  rw [hdrop, htake]
  dsimp only
  split
  . next hnil =>
    subst hnil
    rfl
  . split
    . rfl
    . rfl

-- There is one way only to take a text apart.
theorem denotes_iff {port : Nat} (hs : s.toList = sip ++ ':' :: sport) (hsip : ':' ∉ sip) :
    Denotes fromString s ip port
      ↔ fromString (String.ofList sip) = some ip ∧ sport ≠ [] ∧ (∀ c ∈ sport, c.isDigit)
        ∧ value sport = port ∧ 1 ≤ port ∧ port ≤ 65535 := by
  constructor
  . rintro ⟨sip', sport', hs', hsip', h⟩
    obtain ⟨htake, hdrop⟩ := parts hs hsip
    obtain ⟨htake', hdrop'⟩ := parts hs' hsip'
    injection hdrop.symm.trans hdrop' with _ hsport
    rw [htake.symm.trans htake', hsport]
    exact h
  . exact fun h => ⟨sip, sport, hs, hsip, h⟩

/-!
### Exactness
-/

-- The text of a port is a number that fits.
def Fits (sport : List Char) : Prop :=
  (∀ c ∈ sport, c.isDigit) ∧ value sport ≤ 65535

theorem Fits.toNat_toPort (h : Fits sport) : (toPort (atoi sport)).toNat = value sport := by
  rw [Addr.toNat_toPort, atoi_eq h.1]
  have hle := h.2
  omega

theorem exact_of_endpoint_none (hnone : (ofString fromString s).endpoint = none)
    (h : ∀ ip port, ¬Denotes fromString s ip port) : Exact fromString s := by
  constructor
  . unfold isValid
    rw [hnone]
    simpa using h
  . exact fun ip port hdenotes => absurd hdenotes (h ip port)

theorem exact_of_fits (hs : s.toList = sip ++ ':' :: sport) (hsip : ':' ∉ sip)
    (hip : fromString (String.ofList sip) = some ip) (hfits : Fits sport)
    (hport : toPort (atoi sport) ≠ 0) : Exact fromString s := by
  have hendpoint := @endpoint_ofString Ip fromString s sip sport hs hsip
  rw [if_neg hport, hip, Option.map_some] at hendpoint
  have hnat := hfits.toNat_toPort
  have hpos : 1 ≤ value sport := by
    rw [← hnat, Nat.one_le_iff_ne_zero]
    exact fun hzero => hport (UInt16.toNat_inj.mp hzero)
  have hne : sport ≠ [] := by
    rintro rfl
    exact hport rfl
  constructor
  . unfold isValid
    rw [hendpoint]
    apply iff_of_true rfl
    refine ⟨ip, value sport, ?_⟩
    rw [denotes_iff hs hsip]
    exact ⟨hip, hne, hfits.1, rfl, hpos, hfits.2⟩
  . intro ip' port hdenotes
    rw [denotes_iff hs hsip, hip] at hdenotes
    obtain ⟨heq, -, -, rfl, -⟩ := hdenotes
    injection heq with heq
    exact ⟨_, hendpoint, heq, hnat⟩

theorem exact_iff_of_parts (hs : s.toList = sip ++ ':' :: sport) (hsip : ':' ∉ sip) :
    Exact fromString s
      ↔ fromString (String.ofList sip) = none ∨ Fits sport ∨ (65536 : Int) ∣ atoi sport := by
  have hendpoint := @endpoint_ofString Ip fromString s sip sport hs hsip
  have hdenotes := fun ip port => @denotes_iff Ip fromString s sip sport ip port hs hsip
  rw [← toPort_eq_zero_iff]
  by_cases hport : toPort (atoi sport) = 0
  . rw [if_pos hport] at hendpoint
    apply iff_of_true _ (Or.inr (Or.inr hport))
    apply exact_of_endpoint_none hendpoint
    intro ip port
    rw [hdenotes]
    rintro ⟨-, -, hdigits, rfl, hpos, hle⟩
    have hnat := Fits.toNat_toPort ⟨hdigits, hle⟩
    rw [← hnat, hport] at hpos
    contradiction
  . rw [if_neg hport] at hendpoint
    rw [or_iff_left hport]
    cases hip : fromString (String.ofList sip) with
    | none =>
      rw [hip] at hendpoint
      apply iff_of_true _ (Or.inl rfl)
      apply exact_of_endpoint_none hendpoint
      intro ip port
      rw [hdenotes, hip]
      rintro ⟨h, -⟩
      contradiction
    | some ip =>
      rw [hip, Option.map_some] at hendpoint
      rw [or_iff_right (Option.some_ne_none ip)]
      constructor
      . intro h
        have hvalid : (ofString fromString s).isValid = true := by
          unfold isValid
          rw [hendpoint]
          rfl
        obtain ⟨ip, port, hexact⟩ := h.isValid_iff.mp hvalid
        obtain ⟨-, -, hdigits, rfl, -, hle⟩ := (hdenotes ip port).mp hexact
        exact ⟨hdigits, hle⟩
      . exact fun hfits => exact_of_fits hs hsip hip hfits hport

/--
An address is valid exactly when its text is `ip:port`, and then it is that one, unless the IP address
can be read, the port is not a number that fits and what is left of it in 16 bits is not zero.
-/
theorem exact_iff_fits (fromString : String → Option Ip) (s : String) :
    Exact fromString s
      ↔ ∀ sip sport, s.toList = sip ++ ':' :: sport → ':' ∉ sip →
        fromString (String.ofList sip) = none ∨ ((∀ c ∈ sport, c.isDigit) ∧ value sport ≤ 65535)
          ∨ (65536 : Int) ∣ atoi sport := by
  constructor
  . intro h sip sport hs hsip
    exact (exact_iff_of_parts hs hsip).mp h
  . intro h
    by_cases hcolon : ':' ∈ s.toList
    . obtain ⟨sip, sport, hs, hsip⟩ := List.eq_append_cons_of_mem hcolon
      exact (exact_iff_of_parts hs hsip).mpr (h sip sport hs hsip)
    . apply exact_of_endpoint_none (ofString_of_not_mem hcolon)
      rintro ip port ⟨sip, sport, hs, -⟩
      apply hcolon
      simp [hs]

-- The port is the one that is 80 in 16 bits.
theorem exists_addr_not_exact :
    ¬Exact (fun s => if s = "127.0.0.1" then some () else none) "127.0.0.1:65616" := by
  intro h
  obtain ⟨ip, port, hdenotes⟩ := h.isValid_iff.mp (by decide)
  have hs : "127.0.0.1:65616".toList = "127.0.0.1".toList ++ ':' :: "65616".toList := by
    decide
  rw [denotes_iff hs (by decide)] at hdenotes
  obtain ⟨-, -, -, hvalue, -, hle⟩ := hdenotes
  have h65616 : value "65616".toList = 65616 := by
    decide
  omega

end Addr
end Lax
