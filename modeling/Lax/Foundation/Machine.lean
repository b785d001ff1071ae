import Mathlib.Logic.Function.Basic

/-!
This module contains machines whose steps are chosen from the outside: an event says who moves and
how, and a machine either cannot take the event or gets to its next state. A list of events is a
run, so that what holds along every run holds for every interleaving.
-/

structure Machine (σ ε : Type) where
  init : σ
  step : σ → ε → Option σ

namespace Machine

variable {σ ε : Type} (m : Machine σ ε)

def run (s : σ) : List ε → Option σ
  | [] => some s
  | e :: es => (m.step s e).bind fun s' => run s' es

def Along (P : σ → ε → Prop) (s : σ) : List ε → Prop
  | [] => True
  | e :: es => P s e ∧ ∀ s', m.step s e = some s' → Along P s' es

def Reachable (s : σ) : Prop :=
  ∃ es, m.run m.init es = some s

variable {m}

theorem run_cons {s s' : σ} {e : ε} {es : List ε} (h : m.run s (e :: es) = some s') :
    ∃ mid, m.step s e = some mid ∧ m.run mid es = some s' :=
  Option.bind_eq_some_iff.mp h

theorem run_append (s : σ) (es es' : List ε) :
    m.run s (es ++ es') = (m.run s es).bind fun s => m.run s es' := by
  induction es generalizing s with
  | nil => rfl
  | cons e es ih =>
    simp only [List.cons_append, run]
    cases m.step s e with
    | none => rfl
    | some s' => exact ih s'

theorem exists_run_of_inv {E : ε → Prop} (Inv : σ → Prop)
    (hstep : ∀ s e, Inv s → E e → ∃ s', m.step s e = some s' ∧ Inv s') {s : σ} {es : List ε}
    (hes : ∀ e ∈ es, E e) (hinv : Inv s) : ∃ s', m.run s es = some s' ∧ Inv s' := by
  induction es generalizing s with
  | nil => exact ⟨s, rfl, hinv⟩
  | cons e es ih =>
    rw [List.forall_mem_cons] at hes
    obtain ⟨mid, hmid, hinv'⟩ := hstep s e hinv hes.1
    obtain ⟨s', hrun, hs'⟩ := ih hes.2 hinv'
    exact ⟨s', Option.bind_eq_some_iff.mpr ⟨mid, hmid, hrun⟩, hs'⟩

theorem exists_run (htotal : ∀ s e, ∃ s', m.step s e = some s') (s : σ) (es : List ε) :
    ∃ s', m.run s es = some s' := by
  have hstep : ∀ s e, True → True → ∃ s', m.step s e = some s' ∧ True := by
    intro s e _ _
    obtain ⟨s', hs'⟩ := htotal s e
    exact ⟨s', hs', trivial⟩
  obtain ⟨s', hrun, _⟩ := exists_run_of_inv (fun _ => True) hstep (fun _ _ => trivial) trivial
  exact ⟨s', hrun⟩

theorem along_cons {P : σ → ε → Prop} {s s' : σ} {e : ε} {es : List ε} (hP : P s e)
    (hstep : m.step s e = some s') (halong : m.Along P s' es) : m.Along P s (e :: es) := by
  refine ⟨hP, ?_⟩
  intro s'' hstep'
  rw [hstep] at hstep'
  injection hstep' with heq
  exact heq ▸ halong

instance decidableAlong (P : σ → ε → Prop) [∀ s e, Decidable (P s e)] (s : σ) :
    (es : List ε) → Decidable (m.Along P s es)
  | [] => isTrue trivial
  | e :: es =>
    match hstep : m.step s e with
    | none =>
      have hstop : ∀ s', m.step s e = some s' → m.Along P s' es := by
        intro s' hs'
        rw [hstep] at hs'
        contradiction
      decidable_of_iff (P s e) ⟨fun h => ⟨h, hstop⟩, And.left⟩
    | some s' =>
      have := decidableAlong P s' es
      decidable_of_iff (P s e ∧ m.Along P s' es)
        ⟨fun h => along_cons h.1 hstep h.2, fun h => ⟨h.1, h.2 s' hstep⟩⟩

theorem along_of_forall {P : σ → ε → Prop} {es : List ε} (h : ∀ s, ∀ e ∈ es, P s e) (s : σ) :
    m.Along P s es := by
  induction es generalizing s with
  | nil => trivial
  | cons e es ih =>
    refine ⟨h s e List.mem_cons_self, fun s' _ => ih ?_ s'⟩
    exact fun s e he => h s e (List.mem_cons_of_mem _ he)

theorem along_and {P Q : σ → ε → Prop} {s : σ} {es : List ε} (hP : m.Along P s es)
    (hQ : m.Along Q s es) : m.Along (fun s e => P s e ∧ Q s e) s es := by
  induction es generalizing s with
  | nil => trivial
  | cons e es ih => exact ⟨⟨hP.1, hQ.1⟩, fun s' hstep => ih (hP.2 s' hstep) (hQ.2 s' hstep)⟩

-- The events of the run may be restricted, and the invariant has to last only as long as the second
-- one holds.
theorem along_congr_on {P Q : σ → ε → Prop} {E : ε → Prop} (Inv : σ → Prop)
    (hstep : ∀ s e s', Inv s → E e → Q s e → m.step s e = some s' → Inv s')
    (hiff : ∀ s e, Inv s → E e → (P s e ↔ Q s e)) {s : σ} {es : List ε} (hes : ∀ e ∈ es, E e)
    (hinv : Inv s) : m.Along P s es ↔ m.Along Q s es := by
  induction es generalizing s with
  | nil => rfl
  | cons e es ih =>
    rw [List.forall_mem_cons] at hes
    unfold Along
    rw [hiff s e hinv hes.1]
    apply and_congr_right
    intro hQ
    apply forall_congr'
    intro s'
    apply imp_congr_right
    intro hs'
    apply ih hes.2
    exact hstep s e s' hinv hes.1 hQ hs'

theorem along_congr_of {P Q : σ → ε → Prop} (Inv : σ → Prop)
    (hstep : ∀ s e s', Inv s → Q s e → m.step s e = some s' → Inv s')
    (hiff : ∀ s e, Inv s → (P s e ↔ Q s e)) {s : σ} {es : List ε} (hinv : Inv s) :
    m.Along P s es ↔ m.Along Q s es := by
  apply along_congr_on (E := fun _ => True) Inv
  . exact fun s e s' hinv _ => hstep s e s' hinv
  . exact fun s e hinv _ => hiff s e hinv
  . exact fun _ _ => trivial
  . exact hinv

theorem along_congr {P Q : σ → ε → Prop} (Inv : σ → Prop)
    (hstep : ∀ s e s', Inv s → m.step s e = some s' → Inv s')
    (hiff : ∀ s e, Inv s → (P s e ↔ Q s e)) {s : σ} {es : List ε} (hinv : Inv s) :
    m.Along P s es ↔ m.Along Q s es := by
  apply along_congr_of Inv
  . exact fun s e s' hinv _ => hstep s e s' hinv
  . exact hiff
  . exact hinv

-- What holds of a step that is taken is a condition on where it is taken from.
theorem along_step_congr {P : σ → ε → σ → Prop} {Q : σ → ε → Prop} (Inv : σ → Prop)
    (hstep : ∀ s e s', Inv s → Q s e → m.step s e = some s' → Inv s')
    (hiff : ∀ s e s', Inv s → m.step s e = some s' → (P s e s' ↔ Q s e)) {s : σ} {es : List ε}
    (hinv : Inv s) :
    m.Along (fun s e => ∀ s', m.step s e = some s' → P s e s') s es
      ↔ m.Along (fun s e => (m.step s e).isSome → Q s e) s es := by
  apply along_congr_of Inv
  . intro s e s' hinv hQ hs'
    apply hstep s e s' hinv _ hs'
    exact hQ (Option.isSome_of_eq_some hs')
  . intro s e hinv
    constructor
    . intro hP hsome
      obtain ⟨s', hs'⟩ := Option.isSome_iff_exists.mp hsome
      exact (hiff s e s' hinv hs').mp (hP s' hs')
    . intro hQ s' hs'
      exact (hiff s e s' hinv hs').mpr (hQ (Option.isSome_of_eq_some hs'))
  . exact hinv

theorem of_along {P : σ → ε → Prop} {s s' : σ} {es es' : List ε} {e : ε}
    (hrun : m.run s es = some s') (halong : m.Along P s (es ++ e :: es')) : P s' e := by
  induction es generalizing s with
  | nil =>
    injection hrun with hrun
    exact hrun ▸ halong.1
  | cons e' es ih =>
    obtain ⟨mid, hmid, hrun⟩ := run_cons hrun
    exact ih hrun (halong.2 mid hmid)

theorem inv_of_along {P : σ → ε → Prop} (Inv : σ → Prop)
    (hstep : ∀ s e s', Inv s → P s e → m.step s e = some s' → Inv s')
    {s s' : σ} {es : List ε} (hrun : m.run s es = some s') (halong : m.Along P s es) (hinv : Inv s) :
    Inv s' := by
  induction es generalizing s with
  | nil =>
    injection hrun with hrun
    exact hrun ▸ hinv
  | cons e es ih =>
    obtain ⟨mid, hmid, hrun⟩ := run_cons hrun
    obtain ⟨hP, halong⟩ := halong
    exact ih hrun (halong mid hmid) (hstep s e mid hinv hP hmid)

theorem inv_of_run (Inv : σ → Prop) (hstep : ∀ s e s', Inv s → m.step s e = some s' → Inv s')
    {s s' : σ} {es : List ε} (hrun : m.run s es = some s') (hinv : Inv s) : Inv s' := by
  apply inv_of_along (P := fun _ _ => True) Inv _ hrun _ hinv
  . exact fun s e s' hinv _ => hstep s e s' hinv
  . apply along_of_forall
    exact fun _ _ _ => trivial

theorem inv_of_reachable (Inv : σ → Prop) (hinit : Inv m.init)
    (hstep : ∀ s e s', Inv s → m.step s e = some s' → Inv s') {s : σ} (h : m.Reachable s) :
    Inv s := by
  obtain ⟨es, hrun⟩ := h
  exact inv_of_run Inv hstep hrun hinit

-- Two machines take the same events.
theorem simulation {τ : Type} {m' : Machine τ ε} {P : σ → ε → Prop} (R : σ → τ → Prop)
    (hstep : ∀ s t e s' t', R s t → P s e → m.step s e = some s' → m'.step t e = some t' → R s' t')
    {s s' : σ} {t t' : τ} {es : List ε} (hrun : m.run s es = some s') (hrun' : m'.run t es = some t')
    (halong : m.Along P s es) (h : R s t) : R s' t' := by
  induction es generalizing s t with
  | nil =>
    injection hrun with hrun
    injection hrun' with hrun'
    exact hrun ▸ hrun' ▸ h
  | cons e es ih =>
    obtain ⟨mid, hmid, hrun⟩ := run_cons hrun
    obtain ⟨mid', hmid', hrun'⟩ := run_cons hrun'
    obtain ⟨hP, halong⟩ := halong
    exact ih hrun hrun' (halong mid hmid) (hstep s t e mid mid' h hP hmid hmid')

-- A machine can do whatever the other one does.
theorem run_of_simulates {τ : Type} {m' : Machine τ ε} (R : σ → τ → Prop)
    (hstep : ∀ s t e t', R s t → m'.step t e = some t' → ∃ s', m.step s e = some s' ∧ R s' t')
    {s : σ} {t t' : τ} {es : List ε} (hrun : m'.run t es = some t') (h : R s t) :
    ∃ s', m.run s es = some s' ∧ R s' t' := by
  induction es generalizing s t with
  | nil =>
    injection hrun with hrun
    exact ⟨s, rfl, hrun ▸ h⟩
  | cons e es ih =>
    obtain ⟨mid', hmid', hrun⟩ := run_cons hrun
    obtain ⟨mid, hmid, hR⟩ := hstep s t e mid' h hmid'
    obtain ⟨s', hs', hR'⟩ := ih hrun hR
    exact ⟨s', Option.bind_eq_some_iff.mpr ⟨mid, hmid, hs'⟩, hR'⟩

end Machine

/-!
### Handing a value on
-/

-- The threads have seen a value in this order: the first one `first`, and each one what the one
-- before it has left. Whoever is next sees `last`.
def Handover {τ ρ σ : Type} (value : ρ → σ) (next : ρ → σ → σ) (seen : τ → ρ) (first : σ)
    (ts : List τ) (last : σ) : Prop :=
  match ts with
  | [] => first = last
  | t :: ts => value (seen t) = first ∧ Handover value next seen (next (seen t) first) ts last

namespace Handover

variable {τ ρ σ : Type} [DecidableEq τ] {value : ρ → σ} {next : ρ → σ → σ} {seen : τ → ρ}
  {first last : σ} {ts : List τ} {t : τ}

omit [DecidableEq τ] in
theorem snoc (h : Handover value next seen first ts last) (ht : value (seen t) = last) :
    Handover value next seen first (ts ++ [t]) (next (seen t) last) := by
  induction ts generalizing first with
  | nil =>
    subst h
    exact ⟨ht, rfl⟩
  | cons t' ts ih => exact ⟨h.1, ih h.2⟩

-- Nobody sees the difference between what `t` has in hand before and after.
theorem update {x : ρ} (h : Handover value next seen first ts last)
    (ht : t ∈ ts → value x = value (seen t) ∧ next x = next (seen t)) :
    Handover value next (Function.update seen t x) first ts last := by
  induction ts generalizing first with
  | nil => exact h
  | cons t' ts ih =>
    have hrest := ih h.2 fun hmem => ht (List.mem_cons_of_mem t' hmem)
    unfold Handover
    by_cases heq : t' = t
    . subst heq
      obtain ⟨hvalue, hnext⟩ := ht List.mem_cons_self
      rw [Function.update_self, hvalue, hnext]
      exact ⟨h.1, hrest⟩
    . rw [Function.update_of_ne heq]
      exact ⟨h.1, hrest⟩

theorem update_of_not_mem {x : ρ} (h : Handover value next seen first ts last) (ht : t ∉ ts) :
    Handover value next (Function.update seen t x) first ts last :=
  h.update fun hmem => absurd hmem ht

-- Whoever leaves is either not in the queue or the first in it.
theorem leave (h : Handover value next seen first ts last) (hturn : t ∈ ts → ts.head? = some t) :
    t ∉ ts ∧ ts.erase t = ts
      ∨ t ∈ ts ∧ value (seen t) = first
        ∧ Handover value next seen (next (seen t) first) (ts.erase t) last := by
  by_cases ht : t ∈ ts
  . right
    cases ts with
    | nil => cases ht
    | cons t' ts =>
      have heq : t' = t := Option.some.inj (hturn ht)
      subst heq
      rw [List.erase_cons_head]
      exact ⟨ht, h⟩
  . left
    exact ⟨ht, List.erase_of_not_mem ht⟩

end Handover
