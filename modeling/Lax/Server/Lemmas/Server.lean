import Lax.Net.Service.Lemmas.Connections
import Lax.Server.Impl.Server

/-!
This module contains what the calls of a server leave running behind, in whatever order they come
and whatever becomes of them.
-/

namespace Lax
namespace Server

variable {Ip : Type} (fromString : String → Option Ip)

/-!
### Calls
-/

-- How many threads `start` makes for the runners.
def Config.runners (cfg : Config) : Nat :=
  (cfg.runnerCount.getD 0).toNat

-- The listener gets as far as to ask for an id.
def asks (o : Outcome) : Option (String × String) → Bool
  | none => false
  | some (_, protocol) => o.known protocol

def opens (o : Outcome) : Option (String × String) → Bool
  | none => false
  | some (addr, protocol) => o.known protocol && (Addr.ofString fromString addr).isValid

def succeeds (cfg : Config) (o : Outcome) : Bool :=
  decide (0 < cfg.runners) && cfg.listens.any (opens fromString o)
    && (!cfg.peerService || o.peerService) && o.onStart

-- `finishes` counts the calls of `finish` that find the server started. Since the last one of these,
-- `starts` counts the calls of `start`, and `drawn` the ids that their listeners have drawn.
structure Calls where
  started : Bool
  starts : Nat
  drawn : Nat
  finishes : Nat
  deriving DecidableEq, Repr

namespace Calls

def next (cfg : Config) (c : Calls) : Event → Calls
  | .start o => {
      c with
      started := c.started || succeeds fromString cfg o
      starts := c.starts + 1
      drawn := if cfg.runners = 0 then c.drawn else c.drawn + cfg.listens.countP (asks o)
    }
  | .finish =>
    if c.started then { started := false, starts := 0, drawn := 0, finishes := c.finishes + 1 } else c

def machine (cfg : Config) : Machine Calls Event where
  init := { started := false, starts := 0, drawn := 0, finishes := 0 }
  step := fun c e => some (c.next fromString cfg e)

def ofEvents (cfg : Config) (es : List Event) : Calls :=
  es.foldl (next fromString cfg) { started := false, starts := 0, drawn := 0, finishes := 0 }

-- What `start` reads from the configuration is well formed, and there are ids for its listeners.
-- The server is not finished for a second time.
def Fits (cfg : Config) (c : Calls) : Event → Prop
  | .start o => cfg.runnerCount ≠ none ∧ (cfg.runners = 0
      ∨ 0 ≤ cfg.concurrency ∧ none ∉ cfg.listens
        ∧ c.drawn + cfg.listens.countP (asks o) < Connections.endId)
  | .finish => c.started = true → c.finishes = 0

end Calls

/-!
### Runners
-/

def State.running (s : State Ip) : Nat :=
  s.runners.countP fun r => !r.stop

theorem mem_startRunners {runners : List TaskRunner} {n : Int} {r : TaskRunner} :
    r ∈ (startRunners runners n).2
      ↔ r ∈ runners ∨ ∃ i < n.toNat, (TaskRunner.ctor (i + 1)).start = r := by
  simp only [startRunners, List.mem_append, List.mem_map, List.mem_range]

theorem countP_startRunners (runners : List TaskRunner) (n : Int) :
    (startRunners runners n).2.countP (fun r => !r.stop)
      = runners.countP (fun r => !r.stop) + n.toNat := by
  have hadded : ∀ r ∈ (List.range n.toNat).map (fun i => (TaskRunner.ctor (i + 1)).start),
      (!r.stop) = true := by
    intro r hr
    obtain ⟨i, -, rfl⟩ := List.mem_map.mp hr
    rfl
  rw [startRunners, List.countP_append, List.countP_eq_length.mpr hadded, List.length_map,
    List.length_range]

theorem eachRunner_eq_none {f : TaskRunner → Option TaskRunner} {runners : List TaskRunner}
    {r : TaskRunner} (hr : r ∈ runners) (h : f r = none) : eachRunner f runners = none := by
  induction runners with
  | nil => contradiction
  | cons r' runners ih =>
    rw [eachRunner]
    obtain rfl | hr := List.mem_cons.mp hr
    . rw [h]
      rfl
    . rw [ih hr]
      cases f r' <;> rfl

theorem eachRunner_of_forall {f : TaskRunner → Option TaskRunner} {g : TaskRunner → TaskRunner}
    {runners : List TaskRunner} (h : ∀ r ∈ runners, f r = some (g r)) :
    eachRunner f runners = some (runners.map g) := by
  induction runners with
  | nil => rfl
  | cons r runners ih =>
    rw [List.forall_mem_cons] at h
    rw [eachRunner, h.1, ih h.2]
    rfl

def TaskRunner.stopped (r : TaskRunner) : TaskRunner :=
  { r with stop := true, joinable := false }

theorem TaskRunner.finish_of_joinable {r : TaskRunner} (h : r.joinable = true) :
    r.finish = some r.stopped :=
  if_pos h

theorem TaskRunner.finish_eq_none {r : TaskRunner} (h : r.joinable = false) : r.finish = none := by
  rw [TaskRunner.finish, h]
  rfl

theorem TaskRunner.destroy_eq {r : TaskRunner} (h : r.joinable = !r.stop) :
    r.destroy = some r.stopped := by
  unfold TaskRunner.destroy
  cases hstop : r.stop with
  | false => exact finish_of_joinable (h.trans (congrArg not hstop))
  | true =>
    have hstopped : r = r.stopped := by
      rw [hstop] at h
      cases r
      dsimp only at h hstop
      rw [h, hstop]
      rfl
    exact congrArg some hstopped

/-!
### Start
-/

-- `n` ids have been drawn, and nobody has found none.
def Drawn (n : Nat) (s : Connections Ip) : Prop :=
  s.threw = false ∧ ∃ drawn, Connections.Inv drawn n s

theorem drawn_ctor : Drawn 0 (Connections.ctor : Connections Ip) :=
  ⟨rfl, [], Connections.inv_ctor⟩

variable {o : Outcome}

theorem code_listen (a : Acceptor Ip) (asio : Asio) : (a.listen asio).1.code = a.addr.isValid := by
  unfold Acceptor.listen
  cases a.addr.isValid with
  | false => rfl
  | true =>
    dsimp only
    repeat' split
    all_goals first | rfl | contradiction

theorem Drawn.listen {n : Nat} {s : Connections Ip} (h : Drawn n s) (addr protocol : String)
    (asio : Asio) :
    let r := s.listen fromString addr protocol true asio
    n + 1 < Connections.endId
        ∧ (∃ rc, r.rc = some rc ∧ rc.code = (Addr.ofString fromString addr).isValid)
        ∧ Drawn (n + 1) r.service
      ∨ Connections.endId ≤ n + 1 ∧ r.rc = none := by
  obtain ⟨hthrew, drawn, hinv⟩ := h
  obtain ⟨drawn', hinv'⟩ := Connections.inv_listen hinv fromString addr protocol asio
  unfold Connections.listen at hinv' ⊢
  rw [if_neg (not_not_intro rfl)] at hinv' ⊢
  cases hnext : s.idGen.next with
  | none =>
    right
    refine ⟨?_, rfl⟩
    obtain ⟨hfalse, -⟩ | ⟨-, hle⟩ := (hinv.throw hnext).asked
    . contradiction
    . exact hle
  | some r =>
    obtain ⟨id, idGen⟩ := r
    left
    rw [hnext] at hinv'
    dsimp only at hinv' ⊢
    have hcode := code_listen (Acceptor.ctor id protocol (Addr.ofString fromString addr)) asio
    generalize (Acceptor.ctor id protocol (Addr.ofString fromString addr)).listen asio = r at *
    cases hvalid : r.1.code with
    | false =>
      rw [hvalid, if_neg Bool.false_ne_true] at hinv'
      rw [if_neg Bool.false_ne_true]
      exact ⟨hinv'.lt hthrew, ⟨r.1, rfl, hcode⟩, hthrew, drawn', hinv'⟩
    | true =>
      rw [hvalid, if_pos rfl] at hinv'
      rw [if_pos rfl]
      exact ⟨hinv'.lt hthrew, ⟨r.1, rfl, hcode⟩, hthrew, drawn', hinv'⟩

theorem listen_of_unknown (s : Connections Ip) (addr protocol : String) (asio : Asio) :
    s.listen fromString addr protocol false asio
      = ⟨some ⟨false, .failProtocolNotAdded⟩, none, s⟩ :=
  if_pos (by decide)

-- What a listener does that does not throw.
structure Listened (n : Nat) (s s' : ServiceImpl Ip) : Prop where
  stop : s'.stop = s.stop
  drawn : Drawn n s'.connections

theorem listenAll_eq {n : Nat} {s : ServiceImpl Ip} (h : Drawn n s.connections) (i : Nat)
    {listens : List (Option (String × String))} (hlisted : none ∉ listens)
    (hroom : n + listens.countP (asks o) < Connections.endId) :
    ∃ count s', listenAll fromString o s i listens = some (count, s')
      ∧ (0 < count ↔ listens.any (opens fromString o) = true)
      ∧ Listened (n + listens.countP (asks o)) s s' := by
  induction listens generalizing n s i with
  | nil => exact ⟨0, s, rfl, by simp, rfl, h⟩
  | cons entry listens ih =>
    rw [List.mem_cons, not_or] at hlisted
    cases entry with
    | none => exact absurd rfl hlisted.1
    | some entry =>
      obtain ⟨addr, protocol⟩ := entry
      rw [List.countP_cons] at hroom ⊢
      rw [List.any_cons, listenAll]
      have hasks : asks o (some (addr, protocol)) = o.known protocol := rfl
      have hopens : opens fromString o (some (addr, protocol))
          = (o.known protocol && (Addr.ofString fromString addr).isValid) := rfl
      rw [hasks] at hroom ⊢
      rw [hopens]
      cases hknown : o.known protocol with
      | false =>
        rw [hknown, if_neg Bool.false_ne_true] at hroom
        obtain ⟨count, s', hall, hcount, hlistened⟩ := ih h (i + 1) hlisted.2 hroom
        rw [listen_of_unknown]
        exact ⟨count, s', by rw [hall]; rfl, hcount, hlistened⟩
      | true =>
        rw [hknown, if_pos rfl] at hroom
        obtain ⟨-, ⟨rc, hrc, hcode⟩, hdrawn⟩ | ⟨hfull, -⟩ :=
          h.listen fromString addr protocol (o.asio i)
        . obtain ⟨count, s', hall, hcount, hlistened⟩ := @ih (n + 1)
            { s with connections := (s.connections.listen fromString addr protocol true (o.asio i)).service }
            hdrawn (i + 1) hlisted.2 (by omega)
          have hadd : n + 1 + listens.countP (asks o) = n + (listens.countP (asks o) + 1) := by omega
          rw [hadd] at hlistened
          rw [hrc]
          dsimp only
          rw [hall, hcode]
          refine ⟨_, s', rfl, ?_, hlistened.stop, hlistened.drawn⟩
          cases (Addr.ofString fromString addr).isValid with
          | false => exact hcount
          | true => simp
        . omega

theorem listenAll_eq_none {n : Nat} {s : ServiceImpl Ip} (h : Drawn n s.connections) (i : Nat)
    {listens : List (Option (String × String))}
    (hthrows : none ∉ listens → Connections.endId ≤ n + listens.countP (asks o)) :
    listenAll fromString o s i listens = none := by
  induction listens generalizing n s i with
  | nil =>
    obtain ⟨hthrew, drawn, hinv⟩ := h
    have hlt := hinv.lt hthrew
    have hle := hthrows List.not_mem_nil
    rw [List.countP_nil] at hle
    omega
  | cons entry listens ih =>
    cases entry with
    | none => rfl
    | some entry =>
      obtain ⟨addr, protocol⟩ := entry
      have hmem : none ∉ some (addr, protocol) :: listens ↔ none ∉ listens := by
        rw [List.mem_cons, not_or]
        exact and_iff_right (fun h => nomatch h)
      have hasks : asks o (some (addr, protocol)) = o.known protocol := rfl
      rw [hmem, List.countP_cons, hasks] at hthrows
      rw [listenAll]
      cases hknown : o.known protocol with
      | false =>
        rw [hknown, if_neg Bool.false_ne_true] at hthrows
        rw [listen_of_unknown]
        dsimp only
        rw [ih h (i + 1) hthrows]
        rfl
      | true =>
        rw [hknown, if_pos rfl] at hthrows
        obtain ⟨-, ⟨rc, hrc, hcode⟩, hdrawn⟩ | ⟨-, hnone⟩ :=
          h.listen fromString addr protocol (o.asio i)
        . rw [hrc]
          dsimp only
          rw [ih hdrawn (i + 1)]
          . rfl
          . intro hlisted
            have hle := hthrows hlisted
            omega
        . rw [hnone]

-- The service, whose listeners have drawn `n` ids.
def Serves (cfg : Config) (n : Nat) : Option (ServiceImpl Ip) → Prop
  | none => n = 0
  | some impl => impl.stop = false ∧ 0 ≤ cfg.concurrency ∧ Drawn n impl.connections

theorem Serves.start {cfg : Config} {n : Nat} {service : Option (ServiceImpl Ip)}
    (h : Serves cfg n service) :
    0 ≤ cfg.concurrency ∧ (∃ impl, Service.start service cfg.concurrency = some (true, impl)
        ∧ impl.stop = false ∧ Drawn n impl.connections)
      ∨ cfg.concurrency < 0 ∧ Service.start service cfg.concurrency = none := by
  cases service with
  | none =>
    change n = 0 at h
    subst h
    by_cases hneg : cfg.concurrency < 0
    . exact Or.inr ⟨hneg, if_pos hneg⟩
    . exact Or.inl ⟨Int.not_lt.mp hneg, _, if_neg hneg, rfl, drawn_ctor⟩
  | some impl =>
    obtain ⟨hstop, hconcurrency, hdrawn⟩ := h
    refine Or.inl ⟨hconcurrency, impl, ?_, hstop, hdrawn⟩
    rw [Service.start, hstop]
    rfl

variable {cfg : Config} {s : State Ip}

theorem runners_of_some {count : Int} (h : cfg.runnerCount = some count) :
    cfg.runners = count.toNat := by
  rw [Config.runners, h]
  rfl

theorem start_of_zero (hread : cfg.runnerCount ≠ none) (hzero : cfg.runners = 0)
    (hrunners : s.runners = []) (o : Outcome) :
    start fromString cfg s o = some (false, s) := by
  obtain ⟨count, hcount⟩ := Option.ne_none_iff_exists'.mp hread
  rw [runners_of_some hcount] at hzero
  have hstart : startRunners s.runners count = (false, s.runners) := by
    rw [startRunners, hrunners, hzero]
    rfl
  simp only [start, hcount, hstart, Option.bind_eq_bind, Option.bind_some, Bool.not_false, if_true]
  rfl

theorem startRunners_fst (runners : List TaskRunner) {count : Int} (h : 0 < count.toNat) :
    (startRunners runners count).1 = true := by
  rw [startRunners, decide_eq_true_iff, List.length_append, List.length_map, List.length_range]
  omega

-- The network service never fails to start without an exception.
theorem start_eq {n : Nat} {count : Int} (hcount : cfg.runnerCount = some count)
    (hpos : 0 < cfg.runners) (hserves : Serves cfg n s.service) (o : Outcome)
    (hconcurrency : 0 ≤ cfg.concurrency) (hlisted : none ∉ cfg.listens)
    (hroom : n + cfg.listens.countP (asks o) < Connections.endId) :
    ∃ impl : ServiceImpl Ip, Serves cfg (n + cfg.listens.countP (asks o)) (some impl)
      ∧ start fromString cfg s o = some (succeeds fromString cfg o,
        {
          phase := if succeeds fromString cfg o then .started else s.phase,
          runners := (startRunners s.runners count).2,
          service := some impl
        }) := by
  have hrunners := startRunners_fst s.runners ((runners_of_some hcount) ▸ hpos)
  obtain ⟨-, impl, hstart, hstop, hdrawn⟩ | ⟨hneg, -⟩ := hserves.start
  . obtain ⟨opened, impl', hall, hopened, hlistened⟩ :=
      listenAll_eq fromString hdrawn 0 hlisted hroom
    refine ⟨impl', ⟨hlistened.stop.trans hstop, hconcurrency, hlistened.drawn⟩, ?_⟩
    have hlisteners : startListeners fromString cfg o impl
        = some (cfg.listens.any (opens fromString o), impl') := by
      rw [startListeners, hall, Option.map_some]
      apply congrArg some
      rw [Prod.mk.injEq, Bool.eq_iff_iff, decide_eq_true_iff]
      exact ⟨hopened, rfl⟩
    simp only [start, hcount, hstart, hlisteners, succeeds, hrunners, hpos, Option.bind_eq_bind,
      Option.bind_some, Bool.not_true, Bool.false_eq_true, if_false, decide_true, Bool.true_and]
    cases cfg.listens.any (opens fromString o) <;> cases cfg.peerService <;> cases o.peerService
      <;> cases o.onStart <;> rfl
  . omega

theorem start_eq_none {n : Nat} {count : Int} (hcount : cfg.runnerCount = some count)
    (hpos : 0 < cfg.runners) (hserves : Serves cfg n s.service) (o : Outcome)
    (hthrows : ¬(0 ≤ cfg.concurrency ∧ none ∉ cfg.listens
      ∧ n + cfg.listens.countP (asks o) < Connections.endId)) :
    start fromString cfg s o = none := by
  have hrunners := startRunners_fst s.runners ((runners_of_some hcount) ▸ hpos)
  obtain ⟨hconcurrency, impl, hstart, -, hdrawn⟩ | ⟨-, hnone⟩ := hserves.start
  . have hall : listenAll fromString o impl 0 cfg.listens = none := by
      apply listenAll_eq_none fromString hdrawn
      exact fun hlisted => Nat.le_of_not_lt fun hroom => hthrows ⟨hconcurrency, hlisted, hroom⟩
    simp only [start, hcount, hstart, startListeners, hall, hrunners, Option.bind_eq_bind,
      Option.bind_some, Option.bind_none, Option.map_none, Bool.not_true, Bool.false_eq_true, if_false]
  . simp only [start, hcount, hnone, hrunners, Option.bind_eq_bind, Option.bind_some,
      Option.bind_none, Bool.not_true, Bool.false_eq_true, if_false]

/-!
### Runs
-/

structure Follows (cfg : Config) (s : State Ip) (c : Calls) : Prop where
  phase : s.phase = .started ↔ c.started = true
  joinable : ∀ r ∈ s.runners, r.joinable = !r.stop
  running : s.running = cfg.runners * c.starts
  stopped : (∃ r ∈ s.runners, r.stop = true) ↔ 0 < c.finishes
  service : s.service ≠ none ↔ 0 < cfg.runners ∧ 0 < c.starts
  serves : Serves cfg c.drawn s.service
  runners : s.runners ≠ [] → 0 < cfg.runners
  started : c.started = true → 0 < cfg.runners ∧ 0 < c.starts

variable {c : Calls}

theorem Follows.start_zero (h : Follows cfg s c) (hread : cfg.runnerCount ≠ none)
    (hzero : cfg.runners = 0) (o : Outcome) :
    start fromString cfg s o = some (false, s) ∧ Follows cfg s (c.next fromString cfg (.start o)) := by
  have hrunners : s.runners = [] := by
    by_contra hne
    have hpos := h.runners hne
    omega
  have hfails : succeeds fromString cfg o = false := by
    unfold succeeds
    simp only [hzero, Nat.lt_irrefl, decide_false, Bool.false_and]
  refine ⟨start_of_zero fromString hread hzero hrunners o, ?_⟩
  constructor
  . rw [Calls.next, hfails, Bool.or_false]
    exact h.phase
  . exact h.joinable
  . rw [h.running, hzero, Nat.zero_mul, Nat.zero_mul]
  . exact h.stopped
  . rw [h.service, hzero]
    exact iff_of_false (fun h => Nat.lt_irrefl _ h.1) (fun h => Nat.lt_irrefl _ h.1)
  . rw [Calls.next, if_pos hzero]
    exact h.serves
  . exact h.runners
  . rw [Calls.next, hfails, Bool.or_false]
    intro hstarted
    have hpos := (h.started hstarted).1
    omega

theorem Follows.start_pos (h : Follows cfg s c) {count : Int} (hcount : cfg.runnerCount = some count)
    (hpos : 0 < cfg.runners) {impl : ServiceImpl Ip} (o : Outcome)
    (hserves : Serves cfg (c.drawn + cfg.listens.countP (asks o)) (some impl)) :
    Follows cfg
      {
        phase := if succeeds fromString cfg o then .started else s.phase,
        runners := (startRunners s.runners count).2,
        service := some impl
      }
      (c.next fromString cfg (.start o)) := by
  constructor
  . dsimp only [Calls.next]
    cases succeeds fromString cfg o with
    | false => rw [Bool.or_false]; exact h.phase
    | true => simp
  . intro r hr
    obtain hr | ⟨i, -, rfl⟩ := mem_startRunners.mp hr
    . exact h.joinable r hr
    . rfl
  . have hrunning := h.running
    unfold State.running at hrunning ⊢
    rw [countP_startRunners, hrunning, ← runners_of_some hcount]
    rfl
  . refine Iff.trans ?_ h.stopped
    constructor
    . intro ⟨r, hr, hrstop⟩
      obtain hr | ⟨i, -, rfl⟩ := mem_startRunners.mp hr
      . exact ⟨r, hr, hrstop⟩
      . contradiction
    . intro ⟨r, hr, hrstop⟩
      exact ⟨r, mem_startRunners.mpr (.inl hr), hrstop⟩
  . exact iff_of_true (Option.some_ne_none _) ⟨hpos, Nat.succ_pos _⟩
  . dsimp only [Calls.next]
    rw [if_neg (Nat.ne_of_gt hpos)]
    exact hserves
  . exact fun _ => hpos
  . exact fun _ => ⟨hpos, Nat.succ_pos _⟩

theorem Follows.start (h : Follows cfg s c) {o : Outcome} (hfits : c.Fits cfg (.start o)) :
    ∃ s', (machine fromString cfg).step s (.start o) = some s'
      ∧ Follows cfg s' (c.next fromString cfg (.start o)) := by
  obtain ⟨hread, hfits⟩ := hfits
  by_cases hzero : cfg.runners = 0
  . obtain ⟨hstart, hnext⟩ := h.start_zero fromString hread hzero o
    exact ⟨s, congrArg (Option.map Prod.snd) hstart, hnext⟩
  . obtain ⟨hconcurrency, hlisted, hroom⟩ := hfits.resolve_left hzero
    obtain ⟨count, hcount⟩ := Option.ne_none_iff_exists'.mp hread
    have hpos := Nat.pos_of_ne_zero hzero
    obtain ⟨impl, hserves, hstart⟩ := start_eq fromString hcount hpos h.serves o
      hconcurrency hlisted hroom
    exact ⟨_, congrArg (Option.map Prod.snd) hstart, h.start_pos fromString hcount hpos o hserves⟩

theorem Follows.start_eq_none (h : Follows cfg s c) {o : Outcome} (hfits : ¬c.Fits cfg (.start o)) :
    (machine fromString cfg).step s (.start o) = none := by
  change (Server.start fromString cfg s o).map Prod.snd = none
  cases hread : cfg.runnerCount with
  | none =>
    rw [Server.start, hread]
    rfl
  | some count =>
    rw [Calls.Fits, not_and_or, not_or] at hfits
    obtain hnone | ⟨hzero, hthrows⟩ := hfits
    . rw [hread] at hnone
      exact absurd (Option.some_ne_none count) hnone
    . rw [Server.start_eq_none fromString hread (Nat.pos_of_ne_zero hzero) h.serves o hthrows]
      rfl

-- The runners that have been finished are still there.
theorem Follows.finish_eq_none (h : Follows cfg s c) (hstarted : c.started = true)
    (hfinishes : 0 < c.finishes) : finish s = none := by
  obtain ⟨r, hr, hstop⟩ := h.stopped.mpr hfinishes
  have hjoinable : r.joinable = false := (h.joinable r hr).trans (congrArg not hstop)
  unfold finish
  rw [h.phase.mpr hstarted, if_neg (by decide),
    eachRunner_eq_none hr (TaskRunner.finish_eq_none hjoinable)]
  rfl

theorem Follows.eachRunner_finish (h : Follows cfg s c) (hfinishes : c.finishes = 0) :
    eachRunner TaskRunner.finish s.runners = some (s.runners.map TaskRunner.stopped) := by
  apply eachRunner_of_forall
  intro r hr
  have hstop : r.stop = false := by
    by_contra hne
    have hfinished := h.stopped.mp ⟨r, hr, (Bool.not_eq_false _).mp hne⟩
    omega
  exact TaskRunner.finish_of_joinable ((h.joinable r hr).trans (congrArg not hstop))

theorem Follows.runners_ne_nil (h : Follows cfg s c) (hstarted : c.started = true) :
    s.runners ≠ [] := by
  obtain ⟨hpos, hstarts⟩ := h.started hstarted
  intro hnil
  have hrunning := h.running
  have hmul : 0 < cfg.runners * c.starts := Nat.mul_pos hpos hstarts
  rw [State.running, hnil, List.countP_nil] at hrunning
  omega

theorem Follows.finish_eq (h : Follows cfg s c) (hstarted : c.started = true)
    (hfinishes : c.finishes = 0) :
    finish s = some
      {
        phase := .finished,
        runners := s.runners.map TaskRunner.stopped,
        service := none
      } := by
  obtain ⟨impl, himpl⟩ := Option.ne_none_iff_exists'.mp (h.service.mpr (h.started hstarted))
  have hserves := h.serves
  rw [himpl] at hserves
  have hservice : Service.finish (some impl) = some none := by
    unfold Service.finish ServiceImpl.finish
    dsimp only
    rw [hserves.1]
    rfl
  unfold finish
  rw [h.phase.mpr hstarted, if_neg (by decide), h.eachRunner_finish hfinishes, himpl]
  rw [Option.bind_some, hservice]
  rfl

theorem Follows.finish_first (h : Follows cfg s c) (hstarted : c.started = true)
    (hfinishes : c.finishes = 0) :
    ∃ s', finish s = some s' ∧ Follows cfg s' (c.next fromString cfg .finish) := by
  refine ⟨_, h.finish_eq hstarted hfinishes, ?_⟩
  rw [Calls.next, if_pos hstarted]
  constructor
  . exact iff_of_false (by simp) (by simp)
  . intro r hr
    obtain ⟨r, -, rfl⟩ := List.mem_map.mp hr
    rfl
  . unfold State.running
    rw [List.countP_map, Nat.mul_zero, List.countP_eq_zero]
    exact fun _ _ => Bool.false_ne_true
  . obtain ⟨r, hr⟩ := List.exists_mem_of_ne_nil _ (h.runners_ne_nil hstarted)
    exact iff_of_true ⟨_, List.mem_map_of_mem hr, rfl⟩ (Nat.succ_pos _)
  . exact iff_of_false (fun h => h rfl) (fun h => Nat.lt_irrefl _ h.2)
  . rfl
  . exact fun _ => (h.started hstarted).1
  . intro h
    contradiction

theorem Follows.finish_idle (h : Follows cfg s c) (hstarted : c.started = false) :
    finish s = some s ∧ c.next fromString cfg .finish = c := by
  have hphase : s.phase ≠ .started := by
    rw [Ne, h.phase, hstarted]
    exact Bool.false_ne_true
  constructor
  . unfold finish
    apply if_pos
    cases hs : s.phase with
    | constructed => exact .inl rfl
    | started => exact absurd hs hphase
    | finished => exact .inr rfl
  . rw [Calls.next, hstarted]
    rfl

theorem Follows.finish (h : Follows cfg s c) (hfits : c.started = true → c.finishes = 0) :
    ∃ s', Server.finish s = some s' ∧ Follows cfg s' (c.next fromString cfg .finish) := by
  cases hstarted : c.started with
  | false =>
    obtain ⟨hfinish, hnext⟩ := h.finish_idle fromString hstarted
    exact ⟨s, hfinish, hnext.symm ▸ h⟩
  | true => exact h.finish_first fromString hstarted (hfits hstarted)

theorem follows_init (cfg : Config) :
    Follows cfg (machine fromString cfg).init (Calls.machine fromString cfg).init where
  phase := iff_of_false (by simp [machine]) (by simp [Calls.machine])
  joinable := List.forall_mem_nil _
  running := rfl
  stopped := iff_of_false (by simp [machine]) (Nat.lt_irrefl _)
  service := iff_of_false (fun h => h rfl) (fun h => Nat.lt_irrefl _ h.2)
  serves := rfl
  runners := fun h => absurd rfl h
  started := fun h => absurd h Bool.false_ne_true

theorem follows_step (h : Follows cfg s c) (e : Event) :
    c.Fits cfg e ∧ (∃ s', (machine fromString cfg).step s e = some s'
        ∧ Follows cfg s' (c.next fromString cfg e))
      ∨ ¬c.Fits cfg e ∧ (machine fromString cfg).step s e = none := by
  by_cases hfits : c.Fits cfg e
  . left
    cases e with
    | start o => exact ⟨hfits, h.start fromString hfits⟩
    | finish => exact ⟨hfits, h.finish fromString hfits⟩
  . right
    cases e with
    | start o => exact ⟨hfits, h.start_eq_none fromString hfits⟩
    | finish =>
      have hagain := Classical.not_imp.mp hfits
      exact ⟨hfits, h.finish_eq_none hagain.1 (Nat.pos_of_ne_zero hagain.2)⟩

theorem follows_run (h : Follows cfg s c) (es : List Event) :
    (((machine fromString cfg).run s es).isSome = true
        ↔ (Calls.machine fromString cfg).Along (Calls.Fits cfg) c es)
      ∧ ∀ s', (machine fromString cfg).run s es = some s' →
        Follows cfg s' (es.foldl (Calls.next fromString cfg) c) := by
  induction es generalizing s c with
  | nil =>
    refine ⟨iff_of_true rfl trivial, ?_⟩
    intro s' hrun
    injection hrun with hrun
    exact hrun ▸ h
  | cons e es ih =>
    rw [List.foldl_cons, Machine.run]
    obtain ⟨hfits, mid, hstep, hmid⟩ | ⟨hfits, hnone⟩ := follows_step fromString h e
    . obtain ⟨hsome, hrest⟩ := ih hmid
      rw [hstep]
      refine ⟨?_, hrest⟩
      refine hsome.trans ⟨fun halong => Machine.along_cons hfits rfl halong, ?_⟩
      exact fun halong => halong.2 _ rfl
    . rw [hnone]
      refine ⟨iff_of_false Bool.false_ne_true (fun halong => hfits halong.1), ?_⟩
      intro _ hrun
      contradiction

/--
No call throws or crashes as long as what `start` reads is well formed, there are ids for the listeners,
and `finish` does not find the server started for a second time.
-/
theorem isSome_run_iff (cfg : Config) (es : List Event) :
    ((machine fromString cfg).run (machine fromString cfg).init es).isSome = true
      ↔ (Calls.machine fromString cfg).Along (Calls.Fits cfg) (Calls.machine fromString cfg).init es :=
  (follows_run fromString (follows_init fromString cfg) es).1

-- No thread of a runner runs, and there is no network service.
def Quiet (s : State Ip) : Prop :=
  (∀ r ∈ s.runners, r.stop = true) ∧ s.service = none

theorem quiet_iff_running (s : State Ip) : Quiet s ↔ s.running = 0 ∧ s.service = none := by
  unfold Quiet State.running
  rw [List.countP_eq_zero]
  simp only [Bool.not_eq_true', Bool.not_eq_false]

/--
Nothing runs if and only if nothing has been asked for since `finish` found the server started. What a
`start` that fails has started is left running by a `finish` after it.
-/
theorem quiet_iff (cfg : Config) (es : List Event) (s : State Ip)
    (hrun : (machine fromString cfg).run (machine fromString cfg).init es = some s) :
    Quiet s ↔ cfg.runners = 0 ∨ (Calls.ofEvents fromString cfg es).starts = 0 := by
  have h : Follows cfg s (Calls.ofEvents fromString cfg es) :=
    (follows_run fromString (follows_init fromString cfg) es).2 s hrun
  have hservice := not_iff_not.mp (h.service.trans not_not.symm)
  rw [quiet_iff_running, hservice, h.running, Nat.mul_eq_zero]
  omega

def anywhere (_ : String) : Option Unit :=
  some ()

-- A runner, and nobody to listen for
def unheard : Config where
  runnerCount := some 1
  concurrency := 1
  listens := []
  peerService := false

def calm : Outcome where
  known := fun _ => true
  asio := fun _ => ⟨true, true, true⟩
  peerService := true
  onStart := true

theorem quiet_iff_failed :
    ∃ s, (machine anywhere unheard).run (machine anywhere unheard).init [.start calm, .finish] = some s
      ∧ ¬Quiet s := by
  refine ⟨_, rfl, ?_⟩
  rw [quiet_iff anywhere unheard [.start calm, .finish] _ rfl]
  decide

theorem Follows.destroy_eq_none (h : Follows cfg s c) (hstarted : c.started = true)
    (hfinishes : 0 < c.finishes) : destroy s = none := by
  rw [destroy, h.finish_eq_none hstarted hfinishes]
  rfl

theorem Follows.destroy_eq {s' : State Ip} (h : Follows cfg s' c) (hfinish : Server.finish s = some s') :
    destroy s = some { s' with runners := s'.runners.map TaskRunner.stopped } := by
  rw [destroy, hfinish, Option.bind_some,
    eachRunner_of_forall fun r hr => TaskRunner.destroy_eq (h.joinable r hr)]
  rfl

/--
When the server is deleted, no runner is left. The network service is left if all calls of `start`
since the last `finish` have failed.
-/
theorem destroy_of_run (cfg : Config) (es : List Event) (s : State Ip)
    (hrun : (machine fromString cfg).run (machine fromString cfg).init es = some s) :
    let c := Calls.ofEvents fromString cfg es
    ((destroy s).isSome = true ↔ ¬(c.started = true ∧ 0 < c.finishes))
      ∧ ∀ s', destroy s = some s' →
        (∀ r ∈ s'.runners, r.stop = true)
          ∧ (s'.service ≠ none ↔ 0 < cfg.runners ∧ 0 < c.starts ∧ c.started = false) := by
  intro c
  have h : Follows cfg s c := (follows_run fromString (follows_init fromString cfg) es).2 s hrun
  by_cases hagain : c.started = true ∧ 0 < c.finishes
  . rw [h.destroy_eq_none hagain.1 hagain.2]
    refine ⟨iff_of_false Bool.false_ne_true (not_not_intro hagain), ?_⟩
    intro _ hs'
    contradiction
  . obtain ⟨mid, hmid, hnext⟩ := h.finish fromString fun hstarted =>
      Nat.eq_zero_of_not_pos fun hpos => hagain ⟨hstarted, hpos⟩
    rw [hnext.destroy_eq hmid]
    refine ⟨iff_of_true rfl hagain, ?_⟩
    intro s' hs'
    injection hs' with hs'
    subst hs'
    constructor
    . intro r hr
      obtain ⟨r, -, rfl⟩ := List.mem_map.mp hr
      rfl
    . refine hnext.service.trans (and_congr_right fun _ => ?_)
      unfold Calls.next
      cases c.started <;> simp

theorem destroy_of_run_failed :
    ∃ s s', (machine anywhere unheard).run (machine anywhere unheard).init [.start calm] = some s
      ∧ destroy s = some s' ∧ s'.service ≠ none := by
  refine ⟨_, _, rfl, rfl, ?_⟩
  have hleft := (destroy_of_run anywhere unheard [.start calm] _ rfl).2 _ rfl
  exact hleft.2.mpr (by decide)

end Server
end Lax
