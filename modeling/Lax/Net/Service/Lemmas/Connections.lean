import Lax.Net.Service.Impl.Connections
import Lax.Util.Lemmas.Sequence

/-!
This module contains how long a service can listen and connect: no id is ever given back, so that each
call uses one up for good.
-/

namespace Lax
namespace Connections

variable {Ip : Type} {s s' : Connections Ip} {drawn : List Nat} {n id : Nat} {idGen : Sequence}

/-!
### The ids that have been drawn
-/

-- What `n` calls have drawn.
structure Inv (drawn : List Nat) (n : Nat) (s : Connections Ip) : Prop where
  valid : s.idGen.Valid (· ∈ drawn)
  beginSeq : s.idGen.beginSeq = 1
  endSeq : s.idGen.endSeq = endId
  nodup : drawn.Nodup
  ids : ∀ id ∈ s.ids, id ∈ drawn
  shared : s.shared = false
  asked : s.threw = false ∧ drawn.length = n ∨ s.threw = true ∧ endId ≤ n

theorem inv_ctor : Inv [] 0 (ctor : Connections Ip) := by
  unfold ctor
  constructor
  . apply (Sequence.valid_ctor _ 100).congr
    . exact fun id => iff_of_false (fun h => h) List.not_mem_nil
    . decide
  . apply Sequence.beginSeq_acquire
  . apply Sequence.endSeq_acquire
  . exact List.nodup_nil
  . exact fun id hid => hid
  . rfl
  . exact Or.inl ⟨rfl, rfl⟩

theorem Inv.lt (h : Inv drawn n s) (hthrew : s.threw = false) : n < endId := by
  have hle := h.valid.length_le h.nodup
  have hpos : 0 < endId := by decide
  rw [h.beginSeq, h.endSeq] at hle
  obtain ⟨-, hlength⟩ | ⟨htrue, -⟩ := h.asked
  . omega
  . rw [hthrew] at htrue
    contradiction

theorem Inv.served (h : Inv drawn n s) : s.Served ↔ n < endId := by
  unfold Served
  rw [and_iff_left h.shared]
  constructor
  . apply h.lt
  . intro hlt
    obtain ⟨hthrew, -⟩ | ⟨-, hle⟩ := h.asked
    . exact hthrew
    . omega

theorem Inv.throw (h : Inv drawn n s) (hnext : s.idGen.next = none) :
    Inv drawn (n + 1) { s with threw := true } := by
  have hle := h.valid.le_length hnext fun _ => id
  rw [h.beginSeq, h.endSeq] at hle
  constructor
  . exact h.valid
  . exact h.beginSeq
  . exact h.endSeq
  . exact h.nodup
  . exact h.ids
  . exact h.shared
  . right
    refine ⟨rfl, ?_⟩
    obtain ⟨-, hlength⟩ | ⟨-, hle⟩ := h.asked
    . omega
    . omega

-- A call has drawn an id, and somebody may be registered under it.
theorem Inv.take (h : Inv drawn n s) (hnext : s.idGen.next = some (id, idGen))
    (hidGen : s'.idGen = idGen) (hthrew : s'.threw = s.threw)
    (hids : ∀ id' ∈ s'.ids, id' = id ∨ id' ∈ s.ids)
    (hshared : s'.shared = (s.shared || s.ids.contains id) ∨ s'.shared = s.shared) :
    Inv (id :: drawn) (n + 1) s' := by
  have hid := h.valid.next hnext
  constructor
  . rw [hidGen]
    apply hid.valid.congr
    exact fun id' => List.mem_cons.symm
  . rw [hidGen, hid.beginSeq_eq, h.beginSeq]
  . rw [hidGen, hid.endSeq_eq, h.endSeq]
  . exact List.nodup_cons.mpr ⟨hid.fresh, h.nodup⟩
  . intro id' hid'
    rw [List.mem_cons]
    exact (hids id' hid').imp_right (h.ids id')
  . obtain hshared | hshared := hshared
    . have hnot : s.ids.contains id = false := by
        rw [List.contains_eq_mem, decide_eq_false_iff_not]
        exact fun hmem => hid.fresh (h.ids id hmem)
      rw [hshared, h.shared, hnot]
      rfl
    . rw [hshared, h.shared]
  . rw [hthrew]
    apply h.asked.imp
    . rintro ⟨hthrew, hlength⟩
      exact ⟨hthrew, congrArg Nat.succ hlength⟩
    . rintro ⟨hthrew, hle⟩
      exact ⟨hthrew, Nat.le_succ_of_le hle⟩

theorem Inv.drop (h : Inv drawn n s) (hidGen : s'.idGen = s.idGen) (hthrew : s'.threw = s.threw)
    (hids : ∀ id ∈ s'.ids, id ∈ s.ids) (hshared : s'.shared = s.shared) : Inv drawn n s' := by
  constructor
  . rw [hidGen]
    exact h.valid
  . rw [hidGen, h.beginSeq]
  . rw [hidGen, h.endSeq]
  . exact h.nodup
  . exact fun id hid => h.ids id (hids id hid)
  . rw [hshared, h.shared]
  . rw [hthrew]
    exact h.asked

/-!
### Steps
-/

theorem mem_put {α : Type} {xs : List (Nat × α)} {x : α} {id' : Nat}
    (h : id' ∈ (put xs id x).map (·.1)) : id' = id ∨ id' ∈ xs.map (·.1) := by
  unfold put at h
  rw [List.map_append, List.mem_append] at h
  obtain h | h := h
  . right
    exact List.map_subset _ (List.filter_subset_self _) h
  . left
    exact List.mem_singleton.mp h

theorem mem_erase {α : Type} {xs : List (Nat × α)} {k : Nat} (h : id ∈ (erase xs k).map (·.1)) :
    id ∈ xs.map (·.1) :=
  List.map_subset _ (List.filter_subset_self _) h

theorem inv_listen (h : Inv drawn n s) (fromString : String → Option Ip) (addr protocol : String)
    (asio : Asio) :
    ∃ drawn', Inv drawn' (n + 1) (s.listen fromString addr protocol true asio).service := by
  unfold listen
  rw [if_neg (not_not_intro rfl)]
  cases hnext : s.idGen.next with
  | none => exact ⟨drawn, h.throw hnext⟩
  | some r =>
    obtain ⟨id, idGen⟩ := r
    dsimp only
    generalize (Acceptor.ctor id protocol (Addr.ofString fromString addr)).listen asio = r
    cases r.1.code with
    | false =>
      rw [if_neg Bool.false_ne_true]
      refine ⟨id :: drawn, h.take hnext rfl rfl ?_ (Or.inr rfl)⟩
      exact fun id' hid' => Or.inr hid'
    | true =>
      rw [if_pos rfl]
      refine ⟨id :: drawn, h.take hnext rfl rfl ?_ (Or.inl rfl)⟩
      intro id' hid'
      obtain hid' | hid' := List.mem_append.mp hid'
      . apply (mem_put hid').imp_right
        exact List.mem_append_left _
      . right
        exact List.mem_append_right _ hid'

theorem inv_connect (h : Inv drawn n s) (addr protocol : String) :
    ∃ drawn', Inv drawn' (n + 1) (s.connect addr protocol true).2 := by
  unfold connect
  rw [if_neg (not_not_intro rfl)]
  cases hnext : s.idGen.next with
  | none => exact ⟨drawn, h.throw hnext⟩
  | some r =>
    obtain ⟨id, idGen⟩ := r
    refine ⟨id :: drawn, h.take hnext rfl rfl ?_ (Or.inl rfl)⟩
    intro id' hid'
    obtain hid' | hid' := List.mem_append.mp hid'
    . right
      exact List.mem_append_left _ hid'
    . apply (mem_put hid').imp_right
      exact List.mem_append_right _

theorem inv_onConnectFailed (h : Inv drawn n s) (k : Nat) : Inv drawn n (s.onConnectFailed k) := by
  apply h.drop
  . rfl
  . rfl
  . intro id hid
    obtain hid | hid := List.mem_append.mp hid
    . exact List.mem_append_left _ hid
    . exact List.mem_append_right _ (mem_erase hid)
  . rfl

theorem inv_onConnected (h : Inv drawn n s) (k : Nat) (ok : Bool) :
    Inv drawn n (s.onConnected k ok) := by
  unfold onConnected
  split
  . apply inv_onConnectFailed h
  . exact h

theorem inv_step {fromString : String → Option Ip} (h : Inv drawn n s) (e : Event) :
    ∃ s' drawn', step fromString s e = some s' ∧ Inv drawn' (n + [e].countP (·.asks)) s' := by
  cases e with
  | listen addr protocol known asio =>
    cases known with
    | false => exact ⟨_, drawn, rfl, h⟩
    | true =>
      obtain ⟨drawn', hinv⟩ := inv_listen h fromString addr protocol asio
      exact ⟨_, drawn', rfl, hinv⟩
  | connect addr protocol known =>
    cases known with
    | false => exact ⟨_, drawn, rfl, h⟩
    | true =>
      obtain ⟨drawn', hinv⟩ := inv_connect h addr protocol
      exact ⟨_, drawn', rfl, hinv⟩
  | onConnected k ok => exact ⟨_, drawn, rfl, inv_onConnected h k ok⟩
  | onConnectFailed k => exact ⟨_, drawn, rfl, inv_onConnectFailed h k⟩

theorem inv_run {fromString : String → Option Ip} (h : Inv drawn n s) (es : List Event) :
    ∃ s' drawn', (machine fromString).run s es = some s'
      ∧ Inv drawn' (n + es.countP (·.asks)) s' := by
  induction es generalizing s drawn n with
  | nil => exact ⟨s, drawn, rfl, h⟩
  | cons e es ih =>
    obtain ⟨mid, drawn', hmid, hinv⟩ := inv_step h e
    obtain ⟨s', drawn'', hrun, hinv'⟩ := ih hinv
    refine ⟨s', drawn'', ?_, ?_⟩
    . exact Option.bind_eq_some_iff.mpr ⟨mid, hmid, hrun⟩
    . rw [Nat.add_assoc, ← List.countP_append] at hinv'
      exact hinv'

/--
Every run goes well exactly as long as there have been fewer calls than there are ids, however many
acceptors and connectors are still there.
-/
theorem served_iff (fromString : String → Option Ip) (es : List Event) :
    ∃ s, (machine fromString).run ctor es = some s
      ∧ (s.Served ↔ es.countP (·.asks) < 65535) := by
  obtain ⟨s, drawn, hrun, hinv⟩ := inv_run inv_ctor es
  refine ⟨s, hrun, ?_⟩
  rw [hinv.served, Nat.zero_add]
  rfl

/-!
### Nobody is there
-/

def misdialled : Event :=
  .listen "" "bits" true ⟨true, true, true⟩

theorem ids_misdialled (fromString : String → Option Ip) {s' : Connections Ip}
    (hstep : step fromString s misdialled = some s') : s'.ids = s.ids := by
  injection hstep with hstep
  subst hstep
  unfold listen
  rw [if_neg (not_not_intro rfl)]
  cases s.idGen.next with
  | none => rfl
  | some r => rfl

theorem along_misdialled (fromString : String → Option Ip) (h : s.ids = []) (n : Nat) :
    (machine fromString).Along (fun s _ => s.ids = []) s (List.replicate n misdialled) := by
  induction n generalizing s with
  | zero => trivial
  | succ n ih =>
    rw [List.replicate_succ]
    refine ⟨h, ?_⟩
    intro s' hstep
    apply ih
    rw [ids_misdialled fromString hstep, h]

-- Addresses that are not valid use the ids up, and nobody is ever registered.
theorem exists_not_served :
    ∃ es s, (machine fun _ => some ()).run ctor es = some s
      ∧ (machine fun _ => some ()).Along (fun s _ => s.ids = []) ctor es ∧ ¬s.Served := by
  obtain ⟨s, drawn, hrun, hinv⟩ := inv_run inv_ctor (List.replicate endId misdialled)
  refine ⟨List.replicate endId misdialled, s, hrun, ?_, ?_⟩
  . apply along_misdialled
    rfl
  . have hasks : misdialled.asks = true := rfl
    rw [hinv.served, List.countP_replicate, if_pos hasks, Nat.zero_add]
    apply Nat.lt_irrefl

end Connections
end Lax
