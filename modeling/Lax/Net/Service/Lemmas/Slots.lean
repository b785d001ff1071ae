import Lax.Foundation.Threads
import Lax.Net.Service.Lemmas.Step

/-!
This module contains the invariant of the slots and what a run has to avoid to keep it.
-/

namespace Lax

open SlotTable

/-!
### The invariant
-/

section Sound

variable {Tid : Type}

-- `reserved` are the slots that threads in `on_new_socket` have taken but not filled yet.
inductive SlotSound (table : SlotTable) (reserved : Tid → Option Nat) (index : Nat) : Prop where
  | free (hlisted : table.freeSlots.count index = 1) (hheld : table.held index = none)
    (hreserved : ∀ t, reserved t ≠ some index)
  | reserved (hlisted : table.freeSlots.count index = 0) (hheld : table.held index = none)
    (hreserved : ∃ t, reserved t = some index ∧ ∀ t', reserved t' = some index → t' = t)
  | occupied (hlisted : table.freeSlots.count index = 0) (hheld : table.held index ≠ none)
    (hreserved : ∀ t, reserved t ≠ some index)

structure Sound (table : SlotTable) (reserved : Tid → Option Nat) : Prop where
  slot : ∀ index < table.sessions.length, SlotSound table reserved index
  count : table.sessionCount.toNat = table.heldCount

variable {table table' : SlotTable} {reserved : Tid → Option Nat}

theorem sound_init : Sound SlotTable.init fun _ : Tid => none :=
  ⟨fun _ h => absurd h (Nat.not_lt_zero _), rfl⟩

namespace SlotSound

variable {index : Nat}

theorem free_of_mem (h : SlotSound table reserved index) (hmem : index ∈ table.freeSlots) :
    table.freeSlots.count index = 1 ∧ table.held index = none
      ∧ ∀ t, reserved t ≠ some index := by
  have hpos := List.count_pos_iff.mpr hmem
  cases h with
  | free hlisted hheld hreserved => exact ⟨hlisted, hheld, hreserved⟩
  | reserved hlisted => omega
  | occupied hlisted => omega

theorem reserved_of_eq {t : Tid} (h : SlotSound table reserved index)
    (ht : reserved t = some index) :
    table.freeSlots.count index = 0 ∧ table.held index = none
      ∧ ∀ t', reserved t' = some index → t' = t := by
  cases h with
  | free hlisted hheld hreserved => exact absurd ht (hreserved t)
  | reserved hlisted hheld hreserved =>
    obtain ⟨t'', -, hunique⟩ := hreserved
    exact ⟨hlisted, hheld, fun t' ht' => (hunique t' ht').trans (hunique t ht).symm⟩
  | occupied hlisted hheld hreserved => exact absurd ht (hreserved t)

theorem occupied_of_held {sp : SessionPtr} (h : SlotSound table reserved index)
    (hheld : table.held index = some sp) :
    table.freeSlots.count index = 0 ∧ ∀ t, reserved t ≠ some index := by
  cases h with
  | free hlisted hnone => cases hheld.symm.trans hnone
  | reserved hlisted hnone => cases hheld.symm.trans hnone
  | occupied hlisted hheld hreserved => exact ⟨hlisted, hreserved⟩

theorem congr {reserved' : Tid → Option Nat} (h : SlotSound table reserved index)
    (hcount : table'.freeSlots.count index = table.freeSlots.count index)
    (hheld : table'.held index = table.held index)
    (hreserved : ∀ t, reserved' t = some index ↔ reserved t = some index) :
    SlotSound table' reserved' index := by
  cases h with
  | free hlisted hnone hno =>
    exact .free (hcount.trans hlisted) (hheld.trans hnone) fun t ht => hno t ((hreserved t).mp ht)
  | reserved hlisted hnone hone =>
    obtain ⟨t, ht, hunique⟩ := hone
    refine .reserved (hcount.trans hlisted) (hheld.trans hnone) ⟨t, (hreserved t).mpr ht, ?_⟩
    exact fun t' ht' => hunique t' ((hreserved t').mp ht')
  | occupied hlisted hsome hno =>
    refine .occupied (hcount.trans hlisted) (fun hnone => hsome (hheld.symm.trans hnone)) ?_
    exact fun t ht => hno t ((hreserved t).mp ht)

end SlotSound

variable [DecidableEq Tid] {t : Tid}

theorem update_some_unique {index : Nat} (hno : ∀ t, reserved t ≠ some index) :
    ∃ t', Function.update reserved t (some index) t' = some index
      ∧ ∀ t'', Function.update reserved t (some index) t'' = some index → t'' = t' :=
  ⟨t, Function.update_self .., fun _ ht' => Threads.eq_of_update (· = some index) hno ht'⟩

namespace Sound

variable {id : SessionId} (h : Sound table reserved)

include h

theorem newId (hnew : table.newId = some (id, table')) (ht : reserved t = none)
    (hlt : ∀ t index, reserved t = some index → index < table.sessions.length) :
    Sound table' (Function.update reserved t (some id.index)) := by
  have hfree := freeSlot_of_newId hnew
  have hold : ∀ index, reserved t ≠ some index := by
    intro index hindex
    cases ht.symm.trans hindex
  refine ⟨?_, ?_⟩
  . intro index hindex
    have hother : index ≠ id.index → index < table.sessions.length →
        table'.freeSlots.count index = table.freeSlots.count index →
        SlotSound table' (Function.update reserved t (some id.index)) index := by
      intro hne hindex hcount
      refine (h.slot index hindex).congr hcount (hfree.held index) ?_
      exact Threads.update_iff (· = some index)
        (iff_of_false (fun heq => hne (Option.some.inj heq).symm) (hold index))
    obtain ⟨hnil, hnil', hid, hlen⟩ | ⟨hcons, hlen⟩ := hfree.slots
    . by_cases hne : index = id.index
      . subst hne
        have hheld := (hfree.held id.index).trans (held_eq_none_of_le table (Nat.le_of_eq hid.symm))
        refine .reserved ?_ hheld (update_some_unique ?_)
        . rw [hnil']
          rfl
        . intro t' ht'
          have := hlt t' _ ht'
          omega
      . refine hother hne (by omega) ?_
        rw [hnil, hnil']
    . by_cases hne : index = id.index
      . subst hne
        obtain ⟨hcount, hheld, hno⟩ := (h.slot id.index (hlen ▸ hindex)).free_of_mem
          (hcons ▸ List.mem_cons_self)
        rw [hcons, List.count_cons_self] at hcount
        exact .reserved (Nat.succ.inj hcount) ((hfree.held id.index).trans hheld)
          (update_some_unique hno)
      . refine hother hne (hlen ▸ hindex) ?_
        rw [hcons, List.count_cons_of_ne (Ne.symm hne)]
  . rw [hfree.sessionCount, hfree.heldCount]
    exact h.count

theorem register {sp : SessionPtr} (ht : reserved t = some sp.id.index)
    (hlt : sp.id.index < table.sessions.length) :
    Sound (table.register sp) (Function.update reserved t none) := by
  obtain ⟨hcount, hheld, hunique⟩ := (h.slot _ hlt).reserved_of_eq ht
  obtain ⟨hheld', hheldCount⟩ := register_eq hlt hheld
  have hlen : (table.register sp).sessions.length = table.sessions.length := length_modify table _ _
  refine ⟨?_, ?_⟩
  . intro index hindex
    by_cases hne : index = sp.id.index
    . subst hne
      refine .occupied hcount ?_ (Threads.not_update (· = some sp.id.index) (fun h => nomatch h) hunique)
      rw [hheld']
      exact fun h => nomatch h
    . refine (h.slot index (hlen ▸ hindex)).congr rfl (held_register_of_ne hne) ?_
      refine Threads.update_iff (· = some index) (iff_of_false (fun heq => nomatch heq) ?_)
      rw [ht]
      exact fun heq => hne (Option.some.inj heq).symm
  . have hle := (table.register sp).heldCount_le
    have hmax : maxSlots = 65535 := rfl
    have hadd : (table.register sp).sessionCount = table.sessionCount + 1 := rfl
    have hone : (1 : UInt16).toNat = 1 := rfl
    rw [hadd, UInt16.toNat_add, h.count, hheldCount, hone]
    exact Nat.mod_eq_of_lt (by omega)

omit [DecidableEq Tid] in
theorem error_own {sp : SessionPtr} (hheld : table.held id.index = some sp) :
    Sound (table.error id) reserved := by
  have hlt := lt_of_held table hheld
  obtain ⟨hcount, hno⟩ := (h.slot _ hlt).occupied_of_held hheld
  obtain ⟨hfree, hlen, hsession, hnone, hother, hheldCount⟩ := error_eq hlt
  refine ⟨?_, ?_⟩
  . intro index hindex
    by_cases hne : index = id.index
    . subst hne
      refine .free ?_ hnone hno
      rw [hfree, List.count_append, hcount, List.count_singleton_self]
    . refine (h.slot index (hlen ▸ hindex)).congr ?_ (hother index hne) (fun _ => Iff.rfl)
      rw [hfree, List.count_append, List.count_singleton, if_neg (by simpa using Ne.symm hne),
        Nat.add_zero]
  . rw [hheld] at hheldCount
    have hpos : (1 : UInt16) ≤ table.sessionCount := by
      rw [UInt16.le_iff_toNat_le, h.count, ← hheldCount]
      exact Nat.le_add_left _ _
    rw [hsession, UInt16.toNat_sub_of_le _ _ hpos, h.count, ← hheldCount]
    rfl

end Sound

omit [DecidableEq Tid] in
theorem not_sound_error {id : SessionId} (h : Sound table reserved)
    (hlt : id.index < table.sessions.length) (hnone : table.held id.index = none) :
    ¬Sound (table.error id) reserved := by
  intro h'
  obtain ⟨hfree, hlen, -, hnone', -, -⟩ := error_eq hlt
  have hmem : id.index ∈ (table.error id).freeSlots := by
    rw [hfree]
    exact List.mem_append_right _ List.mem_cons_self
  obtain ⟨hcount, -, hno⟩ := (h'.slot id.index (hlen ▸ hlt)).free_of_mem hmem
  rw [hfree, List.count_append, List.count_singleton_self] at hcount
  cases h.slot id.index hlt with
  | free hlisted => omega
  | reserved _ _ hreserved =>
    obtain ⟨t, ht, -⟩ := hreserved
    exact hno t ht
  | occupied _ hheld => exact hheld hnone

theorem not_sound_throw {index : Nat} (h : Sound table reserved)
    (ht : reserved t = some index) (hlt : index < table.sessions.length) :
    ¬Sound table (Function.update reserved t none) := by
  intro h'
  obtain ⟨hcount, hheld, hunique⟩ := (h.slot index hlt).reserved_of_eq ht
  have hno : ∀ t', Function.update reserved t none t' ≠ some index :=
    Threads.not_update (· = some index) (fun h => nomatch h) hunique
  cases h'.slot index hlt with
  | free hlisted => omega
  | reserved _ _ hreserved =>
    obtain ⟨t', ht', -⟩ := hreserved
    exact hno t' ht'
  | occupied _ hsome => exact hsome hheld

end Sound

namespace Service

variable {Tid : Type} [DecidableEq Tid]

/-!
### Steps
-/

def Pc.slot : Pc → Option Nat
  | .reserved _ id => some id.index
  | .constructing _ sp | .ready _ sp | .constructed _ sp | .relocked _ sp => some sp.id.index
  | _ => none

omit [DecidableEq Tid] in
def State.reserved (s : State Tid) (t : Tid) : Option Nat :=
  (s.threads t).slot

-- No constructor throws, and nobody but the session in its slot reports an error.
def OrderlyAt (table : SlotTable) (ok : Bool) : Pc → Prop
  | .constructing _ _ | .ready _ _ => ok = true
  | .locked (.error id) =>
    table.sessions.length ≤ id.index ∨ ∃ sp, table.held id.index = some sp ∧ sp.id = id
  | _ => True

def RemovesOwnAt (table : SlotTable) : Pc → Prop
  | .locked (.error id) => ∀ index sp, table.held index = some sp →
    (table.error id).held index = none → sp.id = id
  | _ => True

def Orderly (s : State Tid) : Event Tid → Prop
  | .next t ok => OrderlyAt s.table ok (s.threads t)
  | _ => True

def RemovesOwn (s : State Tid) : Event Tid → Prop
  | .next t _ => RemovesOwnAt s.table (s.threads t)
  | _ => True

inductive SlotStep (s s' : State Tid) (orderly own : Prop) : Prop where
  | quiet (htable : s'.table = s.table) (hreserved : s'.reserved = s.reserved)
    (horderly : orderly) (hown : own)
  | taken (t : Tid) (id : SessionId) (ht : s.reserved t = none)
    (hnew : s.table.newId = some (id, s'.table))
    (hreserved : s'.reserved = Function.update s.reserved t (some id.index))
    (horderly : orderly) (hown : own)
  | registered (t : Tid) (sp : SessionPtr) (ht : s.reserved t = some sp.id.index)
    (htable : s'.table = s.table.register sp)
    (hreserved : s'.reserved = Function.update s.reserved t none)
    (horderly : orderly) (hown : own)
  | removed (id : SessionId) (htable : s'.table = s.table.error id)
    (hreserved : s'.reserved = s.reserved)
    (horderly : orderly ↔ s.table.sessions.length ≤ id.index
      ∨ ∃ sp, s.table.held id.index = some sp ∧ sp.id = id)
    (hown : own ↔ ∀ index sp, s.table.held index = some sp →
      (s.table.error id).held index = none → sp.id = id)
  | thrown (t : Tid) (index : Nat) (ht : s.reserved t = some index)
    (htable : s'.table = s.table) (hreserved : s'.reserved = Function.update s.reserved t none)
    (horderly : ¬orderly)

variable {s s' : State Tid} {t : Tid}

theorem reserved_update {pc : Pc} (h : s'.threads = Function.update s.threads t pc) :
    s'.reserved = Function.update s.reserved t pc.slot := by
  funext t'
  unfold State.reserved
  rw [h]
  by_cases hne : t' = t
  . subst hne
    rw [Function.update_self, Function.update_self]
  . rw [Function.update_of_ne hne, Function.update_of_ne hne]

theorem slotStep_of_step {e : Event Tid} (hstep : step s e = some s') :
    SlotStep s s' (Orderly s e) (RemovesOwn s e) := by
  obtain ⟨t, pc', hmove, hthreads⟩ := moved_of_step hstep
  have hreserved := reserved_update hthreads
  generalize hpc : s.threads t = pc at hmove
  have hslot : s.reserved t = pc.slot := congrArg Pc.slot hpc
  have horderly : ∀ ok, Orderly s (.next t ok) ↔ OrderlyAt s.table ok pc :=
    fun ok => Iff.of_eq (congrArg (OrderlyAt s.table ok) hpc)
  have hown : ∀ ok, RemovesOwn s (.next t ok) ↔ RemovesOwnAt s.table pc :=
    fun ok => Iff.of_eq (congrArg (RemovesOwnAt s.table) hpc)
  have hsame : pc.slot = pc'.slot → s'.reserved = s.reserved := by
    intro heq
    rw [hreserved, ← heq, ← hslot]
    exact Function.update_eq_self t s.reserved
  have hquiet : ∀ ok, s'.table = s.table → pc.slot = pc'.slot → OrderlyAt s.table ok pc →
      RemovesOwnAt s.table pc →
      SlotStep s s' (Orderly s (.next t ok)) (RemovesOwn s (.next t ok)) :=
    fun ok htable heq ho hr =>
      .quiet htable (hsame heq) ((horderly ok).mpr ho) ((hown ok).mpr hr)
  cases hmove with
  | call h => exact .quiet h.table (hsame rfl) trivial trivial
  | acquire h => exact .quiet h.table (hsame rfl) trivial trivial
  | lock hfree h => exact hquiet _ h.table rfl trivial trivial
  | error h => exact .removed _ h.table (hsame rfl) (horderly _) (hown _)
  | @finish t ok op herror hsocket h =>
    cases op with
    | error id => exact absurd rfl (herror id)
    | newSocket | listen | connect => exact hquiet _ h.table rfl trivial trivial
  | reserve hkey hnew h =>
    refine .taken t _ hslot ?_ hreserved ((horderly _).mpr trivial) ((hown _).mpr trivial)
    rw [h.table]
    exact hnew
  | release h => exact hquiet _ h.table rfl trivial trivial
  | notify h => exact hquiet _ h.table rfl rfl trivial
  | construct h => exact hquiet _ h.table rfl rfl trivial
  | throwEarly h => exact .thrown t _ hslot h.table hreserved fun ho => nomatch (horderly _).mp ho
  | throwLate h => exact .thrown t _ hslot h.table hreserved fun ho => nomatch (horderly _).mp ho
  | relock hfree h => exact hquiet _ h.table rfl trivial trivial
  | register h =>
    exact .registered t _ hslot h.table hreserved ((horderly _).mpr trivial) ((hown _).mpr trivial)
  | unlock h => exact hquiet _ h.table rfl trivial trivial
  | forget h => exact hquiet _ h.table rfl trivial trivial
  | leave h => exact hquiet _ h.table rfl trivial trivial
  | share h => exact hquiet _ h.table rfl trivial trivial
  | unshare h => exact hquiet _ h.table rfl trivial trivial

/-!
### Runs
-/

def InRange (table : SlotTable) (reserved : Tid → Option Nat) : Prop :=
  ∀ t index, reserved t = some index → index < table.sessions.length

theorem inRange_update {table table' : SlotTable} {reserved : Tid → Option Nat} {x : Option Nat}
    (h : InRange table reserved) (hle : table.sessions.length ≤ table'.sessions.length)
    (hx : ∀ index, x = some index → index < table'.sessions.length) :
    InRange table' (Function.update reserved t x) := by
  apply (Function.forall_update_iff reserved
    fun _ x => ∀ index, x = some index → index < table'.sessions.length).mpr
  exact ⟨hx, fun t' _ index ht' => Nat.lt_of_lt_of_le (h t' index ht') hle⟩

theorem inRange_step {e : Event Tid} (h : InRange s.table s.reserved)
    (hstep : step s e = some s') : InRange s'.table s'.reserved := by
  cases slotStep_of_step hstep with
  | quiet htable hreserved =>
    rw [htable, hreserved]
    exact h
  | taken t id ht hnew hreserved =>
    have hlen := (freeSlot_of_newId hnew).slots
    rw [hreserved]
    refine inRange_update h ?_ ?_
    . omega
    . rintro index ⟨⟩
      obtain ⟨-, -, hid, hlen⟩ | ⟨hcons, hlen⟩ := hlen
      . omega
      . rw [hlen]
        exact s.table.free_lt _ (hcons ▸ List.mem_cons_self)
  | registered t sp ht htable hreserved =>
    rw [hreserved, htable]
    refine inRange_update h (Nat.le_of_eq (length_modify s.table _ _).symm) ?_
    exact fun index hindex => nomatch hindex
  | removed id htable hreserved =>
    rw [hreserved, htable]
    intro t index ht
    rw [length_error]
    exact h t index ht
  | thrown t index ht htable hreserved =>
    rw [hreserved, htable]
    exact inRange_update h (Nat.le_refl _) fun index hindex => nomatch hindex

theorem sound_step_iff {e : Event Tid} (h : Sound s.table s.reserved)
    (hlt : InRange s.table s.reserved) (hstep : step s e = some s') :
    RemovesOwn s e ∧ Sound s'.table s'.reserved ↔ Orderly s e := by
  cases slotStep_of_step hstep with
  | quiet htable hreserved horderly hown =>
    rw [htable, hreserved]
    exact iff_of_true ⟨hown, h⟩ horderly
  | taken t id ht hnew hreserved horderly hown =>
    rw [hreserved]
    exact iff_of_true ⟨hown, h.newId hnew ht hlt⟩ horderly
  | registered t sp ht htable hreserved horderly hown =>
    rw [hreserved, htable]
    exact iff_of_true ⟨hown, h.register ht (hlt t _ ht)⟩ horderly
  | removed id htable hreserved horderly hown =>
    rw [hreserved, htable, horderly, hown]
    constructor
    . rintro ⟨hown, hsound⟩
      refine Or.symm ((Nat.lt_or_ge id.index s.table.sessions.length).imp_left fun hlt => ?_)
      cases hheld : s.table.held id.index with
      | none => exact absurd hsound (not_sound_error h hlt hheld)
      | some sp =>
        obtain ⟨-, -, -, hnone, -⟩ := error_eq hlt
        exact ⟨sp, rfl, hown id.index sp hheld hnone⟩
    . rintro (hle | ⟨sp, hheld, hid⟩)
      . rw [error_of_le hle]
        refine ⟨?_, h⟩
        intro index sp hheld hnone
        cases hheld.symm.trans hnone
      . refine ⟨?_, h.error_own hheld⟩
        intro index sp' hheld' hnone
        obtain ⟨-, -, -, -, hother, -⟩ := error_eq (lt_of_held s.table hheld)
        by_cases hne : index = id.index
        . subst hne
          injection hheld.symm.trans hheld' with heq
          exact heq ▸ hid
        . rw [hother index hne] at hnone
          cases hheld'.symm.trans hnone
  | thrown t index ht htable hreserved horderly =>
    rw [hreserved, htable]
    exact iff_of_false (fun hsound => not_sound_throw h ht (hlt t index ht) hsound.2) horderly

theorem sound_along_iff {es : List (Event Tid)} (h : Sound s.table s.reserved)
    (hlt : InRange s.table s.reserved) (hrun : machine.run s es = some s') :
    machine.Along (fun s e => Sound s.table s.reserved ∧ RemovesOwn s e) s es
        ∧ Sound s'.table s'.reserved
      ↔
    machine.Along Orderly s es := by
  induction es generalizing s with
  | nil =>
    injection hrun with hrun
    subst hrun
    exact iff_of_true ⟨trivial, h⟩ trivial
  | cons e es ih =>
    obtain ⟨mid, hmid, hrun⟩ := Machine.run_cons hrun
    have hstep := sound_step_iff h hlt hmid
    have hlt' := inRange_step hlt hmid
    constructor
    . rintro ⟨⟨⟨-, hown⟩, hrest⟩, hlast⟩
      have hrest := hrest mid hmid
      have hsound : Sound mid.table mid.reserved := by
        cases es with
        | nil =>
          injection hrun with hrun
          exact hrun ▸ hlast
        | cons e' es => exact hrest.1.1
      exact Machine.along_cons (hstep.mp ⟨hown, hsound⟩) hmid
        ((ih hsound hlt' hrun).mp ⟨hrest, hlast⟩)
    . rintro ⟨horderly, hrest⟩
      obtain ⟨hown, hsound⟩ := hstep.mpr horderly
      obtain ⟨hrest, hlast⟩ := (ih hsound hlt' hrun).mpr (hrest mid hmid)
      exact ⟨Machine.along_cons ⟨h, hown⟩ hmid hrest, hlast⟩

/--
In every state of a run each slot is sound and each error removes its own session, if and only if
the run is orderly.
-/
theorem slots_sound_iff (s : State Tid) (es : List (Event Tid))
    (hrun : machine.run machine.init es = some s) :
    machine.Along (fun s e => Sound s.table s.reserved ∧ RemovesOwn s e) machine.init es
        ∧ Sound s.table s.reserved
      ↔
    machine.Along Orderly machine.init es :=
  sound_along_iff sound_init (fun _ _ h => nomatch h) hrun

def listening : List (Event Unit) :=
  [.call () .listen, .next () true, .next () true, .next () true]

def accepting : List (Event Unit) :=
  [.call () (.newSocket ⟨true, 1⟩), .next () true, .next () true, .next () true]

theorem slots_sound_iff_accepting :
    ∃ s, machine.run machine.init (listening ++ accepting) = some s
      ∧ (machine.Along (fun s e => Sound s.table s.reserved ∧ RemovesOwn s e) machine.init
            (listening ++ accepting)
          ∧ Sound s.table s.reserved
        ↔
      machine.Along Orderly machine.init (listening ++ accepting)) :=
  ⟨_, rfl, slots_sound_iff _ _ rfl⟩

-- The constructor throws, and nothing gives the slot back.
theorem not_sound_thrown :
    ∃ s, machine.run machine.init (listening ++ accepting ++ [.next () false]) = some s
      ∧ ¬Sound s.table s.reserved := by
  refine ⟨_, rfl, ?_⟩
  intro h
  cases h.slot 0 (by decide) with
  | free hlisted => cases hlisted
  | reserved _ _ hreserved =>
    obtain ⟨t, ht, -⟩ := hreserved
    cases ht
  | occupied _ hheld => exact hheld rfl

end Service
end Lax
