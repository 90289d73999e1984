import CppServer.Listener.Armed
import CppServer.Listener.Sessions

namespace CppServer.Listener

open Function Base

variable {W E S : Type}

/-- Where the call of `ServerService::Start` is. -/
inductive Start
  | notCalled
  | startAccept
  | returned (ok : Bool)
deriving DecidableEq, Repr

/-- The variable `service` of `Start` and the parameter of `StartAccept`. -/
def Start.services : Start → ℕ
  | .startAccept => 2
  | .notCalled | .returned _ => 0

/-- Whether `StartAccept` is under way or has succeeded. -/
def Start.accepting : Start → Bool
  | .startAccept => true
  | .returned ok => ok
  | .notCalled => false

def Caller.listeners : Caller S → ℕ
  | .startAccept _ => 0
  | .processAccept _ _ => 1

/-- The references to the listener at a place of a thread: the variable `iocpObject` of
`Dispatch`, and the `owner` of an event that is not listed yet. -/
def Pc.listeners : Pc E S → ℕ
  | .pushBack _ _ | .processAccept _ | .setUpdateAcceptSocket _ _ | .getpeername _ _
  | .setNetAddress _ _ _ => 1
  | .createSession _ _ caller | .init _ _ _ caller | .setSession _ _ _ caller
  | .acceptEx _ _ _ caller | .unwind _ caller => caller.listeners
  | .idle | .setup _ | .loop _ | .setOwner _ _ | .dispatch _ => 0

/-- The server with all that refers to its service and its listener. `_listener` and `_service`
say whether these members are not null, and `outside` counts the references to the service that
its users hold. `closed` says that `CloseService` has returned. -/
structure Process (W E S : Type) where
  server : Server W E S
  start : Start := .notCalled
  _listener : Bool := false
  _service : Bool := false
  outside : ℕ := 1
  serviceAlive : Bool := true
  listenerAlive : Bool := false
  closed : Bool := false

namespace Process

/-- A label: a step of the server; `Start` is called, with the answer of `CanStart`, or returns;
a user copies or drops a reference to the service, or calls `CloseService`; an object goes with
its last reference. -/
inductive Act (W E S : Type)
  | server (a : Listener.Act W E S)
  | start (canStart : Bool)
  | startReturns
  | copy
  | drop
  | closeService
  | destroyService
  | destroyListener
deriving DecidableEq

def serviceCount (s : Process W E S) : ℕ := s.outside + s.start.services + s._service.toNat

/-- `Listener::~Listener`; its member `_service` goes too. -/
def destroyListener [DecidableEq E] (s : Process W E S) : Process W E S :=
  let event e := if e ∈ s.server.shared.acceptEvents then {} else s.server.shared.event e
  { s with
    listenerAlive := false
    _service := false
    server := { s.server with shared := { s.server.shared with acceptEvents := [], event } } }

/-- `Service::~Service`, with the members of a `ServerService`. -/
def destroyService (s : Process W E S) : Process W E S :=
  let service := { s.server.shared.service with sessions := ∅ }
  { s with
    serviceAlive := false
    _listener := false
    server := { s.server with shared := { s.server.shared with service } } }

/-- `ServerService::CloseService`, which does nothing yet. -/
def closeService (s : Process W E S) : Process W E S := { s with closed := true }

section

variable [Fintype W] [DecidableEq S]

def listenerCount (s : Process W E S) : ℕ :=
  s._listener.toNat +
    s.server.shared.acceptEvents.countP
      (fun e => (s.server.shared.event e).owner = some .listener) +
    ∑ w, (s.server.pc w).listeners

variable [DecidableEq W] [DecidableEq E]

/-- `Start` makes a listener, which gets its service in `StartAccept`. The listener of a call
that failed has no events, and goes when `_listener` is assigned. -/
def step (main : W) (s : Process W E S) : Act W E S → Option (Process W E S)
  | .server a => (s.server.step a).map fun server => { s with server }
  | .start canStart =>
    if 0 < s.outside ∧ s.server.crashed = false ∧
        (s.start = .notCalled ∨ s.start = .returned false) then
      if canStart then
        let maxSessionCount := s.server.shared.service.maxSessionCount
        some { s with
          server := (machine W E S main maxSessionCount).start
          start := .startAccept
          _listener := true
          _service := true
          listenerAlive := true }
      else some { s with start := .returned false }
    else none
  | .startReturns =>
    match s.start, s.server.shared.returned with
    | .startAccept, some ok => some { s with start := .returned ok }
    | _, _ => none
  | .copy => if 0 < s.outside then some { s with outside := s.outside + 1 } else none
  -- the caller of `Start` keeps its reference during the call
  | .drop =>
    if 0 < s.outside ∧ (s.start = .startAccept → 1 < s.outside) then
      some { s with outside := s.outside - 1 }
    else none
  | .closeService => if 0 < s.outside then some s.closeService else none
  | .destroyService =>
    if s.serviceAlive = true ∧ s.serviceCount = 0 then some s.destroyService else none
  | .destroyListener =>
    if s.listenerAlive = true ∧ s.listenerCount = 0 then some s.destroyListener else none

/-- A service and one reference to it, before the call of `Start` by the thread `main`. -/
def machine (W E S : Type) [Fintype W] [DecidableEq W] [DecidableEq E] [DecidableEq S]
    (main : W) (maxSessionCount : ℤ) : Machine (Process W E S) (Act W E S) where
  start := { server := { shared := { service := { maxSessionCount } } } }
  step := step main

end

/-- `CloseService` has returned, no accept is outstanding with the system, and no user has a
reference to the service. -/
def Dropped (s : Process W E S) : Prop :=
  s.closed = true ∧ s.server.shared.pending = [] ∧ s.outside = 0

/-- From the entry of `StartAccept` the service and its listener refer to each other, and the
server runs. -/
structure Started (main : W) (maxSessionCount : ℤ) [DecidableEq W] [DecidableEq E] [DecidableEq S]
    (s : Process W E S) : Prop where
  listener : s._listener = true
  service : s._service = true
  serviceAlive : s.serviceAlive = true
  listenerAlive : s.listenerAlive = true
  run : ∃ as, (Listener.machine W E S main maxSessionCount).Run Machine.Any as s.server
  finished : ∀ ok, s.start = .returned ok → s.server.shared.returned = some ok

/-- The invariant. A user's reference keeps the service alive. -/
structure Inv (main : W) (maxSessionCount : ℤ) [DecidableEq W] [DecidableEq E] [DecidableEq S]
    (s : Process W E S) : Prop where
  limit : s.server.shared.service.maxSessionCount = maxSessionCount
  alive : 0 < s.outside → s.serviceAlive = true
  started : s.start.accepting = true → s.Started main maxSessionCount

variable [DecidableEq W] [DecidableEq E] [DecidableEq S]
variable {main : W} {maxSessionCount : ℤ} {s s' : Process W E S}

theorem Started.serviceCount (hstarted : s.Started main maxSessionCount) :
    s.serviceCount = s.outside + s.start.services + 1 := by
  rw [Process.serviceCount, hstarted.service]
  rfl

/-- `StartAccept` returns once. -/
theorem returned_step {t t' : Server W E S} {a : Listener.Act W E S} {ok : Bool}
    (hrun : ∃ as, (Listener.machine W E S main maxSessionCount).Run Machine.Any as t)
    (hreturned : t.shared.returned = some ok) (hstep : t.step a = some t') :
    t'.shared.returned = some ok := by
  obtain ⟨as, hrun⟩ := hrun
  cases a with
  | run w outcome =>
    rcases Server.step_run hstep with ⟨-, rfl⟩ | ⟨h, pc, hcode, rfl⟩
    · exact hreturned
    · have hout := not_starting (inv_run hrun) (started_run hrun) hreturned w
      exact (step_outside hout hcode).2.1.trans hreturned
  | complete e x status bytes =>
    obtain ⟨-, rfl⟩ := Server.step_complete hstep
    exact hreturned
  | addSession | releaseSession | forget =>
    rw [(Server.step_external rfl hstep).returned]
    exact hreturned

theorem limit_step {t t' : Server W E S} {a : Listener.Act W E S} (hstep : t.step a = some t') :
    t'.shared.service.maxSessionCount = t.shared.service.maxSessionCount := by
  cases a with
  | run w outcome =>
    rcases Server.step_run hstep with ⟨-, rfl⟩ | ⟨h, pc, hcode, rfl⟩
    · rfl
    · exact congrArg Service.maxSessionCount (step_sessions hcode).1
  | complete e x status bytes =>
    obtain ⟨-, rfl⟩ := Server.step_complete hstep
    rfl
  | addSession | releaseSession | forget => exact (Server.step_external rfl hstep).maxSessionCount

theorem Started.server (hstarted : s.Started main maxSessionCount) {a : Listener.Act W E S}
    {server : Server W E S} (hstep : s.server.step a = some server) :
    ({ s with server } : Process W E S).Started main maxSessionCount := by
  obtain ⟨hlistener, hservice, hsalive, hlalive, ⟨as, hrun⟩, hfinished⟩ := hstarted
  refine ⟨hlistener, hservice, hsalive, hlalive, ⟨as ++ [a], hrun.snoc trivial hstep⟩,
    fun ok hok => returned_step ⟨as, hrun⟩ (hfinished ok hok) hstep⟩

/-- What users do with their references leaves the rest. -/
theorem Started.congr {outside : ℕ} {closed : Bool} (hstarted : s.Started main maxSessionCount) :
    ({ s with outside, closed } : Process W E S).Started main maxSessionCount :=
  ⟨hstarted.listener, hstarted.service, hstarted.serviceAlive, hstarted.listenerAlive, hstarted.run,
    hstarted.finished⟩

/-- The start of `StartAccept`. -/
theorem started_start (s : Process W E S) (halive : s.serviceAlive = true) :
    ({ s with
      server := (Listener.machine W E S main maxSessionCount).start
      start := .startAccept
      _listener := true
      _service := true
      listenerAlive := true } : Process W E S).Started main maxSessionCount := by
  refine ⟨rfl, rfl, halive, rfl, ⟨[], .start⟩, fun ok hok => ?_⟩
  cases hok

variable [Fintype W]

theorem Started.listenerCount_pos (hstarted : s.Started main maxSessionCount) :
    0 < s.listenerCount := by
  rw [listenerCount, hstarted.listener, Bool.toNat_true]
  omega

theorem inv_step {a : Act W E S} (hinv : s.Inv main maxSessionCount)
    (hstep : s.step main a = some s') : s'.Inv main maxSessionCount := by
  obtain ⟨hlimit, halive, hstarted⟩ := hinv
  cases a with
  | server a =>
    obtain ⟨server, hserver, rfl⟩ := Option.map_eq_some_iff.mp hstep
    exact ⟨(limit_step hserver).trans hlimit, halive, fun hin => (hstarted hin).server hserver⟩
  | start canStart =>
    simp only [step] at hstep
    split at hstep
    case isFalse => cases hstep
    case isTrue hcall =>
      have hserves := halive hcall.1
      split at hstep
      case isTrue =>
        cases hstep
        rw [hlimit]
        exact ⟨rfl, fun _ => hserves, fun _ => started_start s hserves⟩
      case isFalse =>
        cases hstep
        exact ⟨hlimit, halive, fun hin => absurd hin Bool.false_ne_true⟩
  | startReturns =>
    simp only [step] at hstep
    split at hstep
    case h_1 ok hstart hreturned =>
      cases hstep
      obtain ⟨hlistener, hservice, hsalive, hlalive, hrun, -⟩ := hstarted (by rw [hstart]; rfl)
      refine ⟨hlimit, halive, fun _ =>
        ⟨hlistener, hservice, hsalive, hlalive, hrun, fun ok' hok => ?_⟩⟩
      cases hok
      exact hreturned
    case h_2 => cases hstep
  | copy =>
    simp only [step] at hstep
    split at hstep
    case isTrue hheld =>
      cases hstep
      exact ⟨hlimit, fun _ => halive hheld, fun hin => (hstarted hin).congr⟩
    case isFalse => cases hstep
  | drop =>
    simp only [step] at hstep
    split at hstep
    case isTrue hheld =>
      cases hstep
      exact ⟨hlimit, fun _ => halive hheld.1, fun hin => (hstarted hin).congr⟩
    case isFalse => cases hstep
  | closeService =>
    simp only [step] at hstep
    split at hstep
    case isTrue =>
      cases hstep
      exact ⟨hlimit, halive, fun hin => (hstarted hin).congr⟩
    case isFalse => cases hstep
  | destroyService =>
    simp only [step] at hstep
    split at hstep
    case isTrue hzero =>
      cases hstep
      refine ⟨hlimit, fun hheld => ?_, fun hin => ?_⟩
      · have hcount : s.outside + s.start.services + s._service.toNat = 0 := hzero.2
        have hheld : 0 < s.outside := hheld
        omega
      · have hcount := (hstarted hin).serviceCount
        have hzero := hzero.2
        omega
    case isFalse => cases hstep
  | destroyListener =>
    simp only [step] at hstep
    split at hstep
    case isTrue hzero =>
      cases hstep
      refine ⟨hlimit, halive, fun hin => ?_⟩
      have hcount := (hstarted hin).listenerCount_pos
      have hzero := hzero.2
      omega
    case isFalse => cases hstep

theorem inv_run {as : List (Act W E S)}
    (hrun : (machine W E S main maxSessionCount).Run Machine.Any as s) :
    s.Inv main maxSessionCount := by
  refine hrun.invariant ⟨rfl, fun _ => rfl, fun hin => absurd hin Bool.false_ne_true⟩ ?_
  exact fun _ _ _ hinv _ hstep => inv_step hinv hstep

/-- A call of `Start` that has returned true is the last one. -/
theorem start_step {a : Act W E S} (hstart : s.start = .returned true)
    (hstep : s.step main a = some s') : s'.start = .returned true := by
  cases a with
  | server a =>
    obtain ⟨server, -, rfl⟩ := Option.map_eq_some_iff.mp hstep
    exact hstart
  | start canStart => simp [step, hstart] at hstep
  | startReturns => simp [step, hstart] at hstep
  | _ =>
    simp only [step] at hstep
    split at hstep <;> cases hstep
    exact hstart

/-- What has been started stays so, whatever happens next. -/
theorem started_exec {as as' : List (Act W E S)}
    (hrun : (machine W E S main maxSessionCount).Run Machine.Any as s)
    (hstart : s.start = .returned true)
    (hexec : (machine W E S main maxSessionCount).exec s as' = some s') :
    s'.Started main maxSessionCount := by
  have hstart' : s'.start = .returned true := by
    induction as' generalizing s as with
    | nil =>
      cases hexec
      exact hstart
    | cons a as' ih =>
      obtain ⟨middle, hstep, hexec⟩ := Option.bind_eq_some_iff.mp hexec
      exact ih (hrun.snoc trivial hstep) (start_step hstart hstep) hexec
  exact (inv_run (hrun.append_exec hexec)).started (by rw [hstart']; rfl)

/-- Once `Start` has returned true, the listener is referred to by its service, by each of its
events, and by the threads that dispatch one. -/
theorem Started.listenerCount (hstarted : s.Started main maxSessionCount)
    (hstart : s.start = .returned true) :
    s.listenerCount = 1 + maxSessionCount.toNat + ∑ w, (s.server.pc w).listeners := by
  obtain ⟨as, hrun⟩ := hstarted.run
  have hreturned := hstarted.finished true hstart
  have howned : s.server.shared.acceptEvents.countP
      (fun e => (s.server.shared.event e).owner = some .listener) = maxSessionCount.toNat := by
    rw [← (Listener.started_run hrun).finished hreturned, List.countP_eq_length]
    intro e he
    exact decide_eq_true ((Listener.inv_run hrun).ready e he).2
  rw [Process.listenerCount, hstarted.listener, howned, Bool.toNat_true]

/-- A run of the server alone. -/
theorem exec_server {as : List (Listener.Act W E S)} {server : Server W E S}
    (hexec : (Listener.machine W E S main maxSessionCount).exec s.server as = some server) :
    (machine W E S main maxSessionCount).exec s (as.map .server) = some { s with server } := by
  induction as generalizing s with
  | nil =>
    cases hexec
    rfl
  | cons a as ih =>
    obtain ⟨middle, hstep, hexec⟩ := Option.bind_eq_some_iff.mp hexec
    exact Option.bind_eq_some_iff.mpr
      ⟨{ s with server := middle }, Option.map_eq_some_iff.mpr ⟨middle, hstep, rfl⟩, ih hexec⟩

end Process

/-- `StartAccept` before an iteration, with all earlier calls of `AcceptEx` completed. -/
structure Looping (main : W) (maxSessionCount : ℤ) (i : ℕ) (t : Server W E S) : Prop where
  pc : t.pc main = .loop i
  limit : t.shared.service.maxSessionCount = maxSessionCount
  pending : t.shared.pending = []
  running : t.crashed = false
  created : ∃ made : Finset S, ∀ x, t.shared.created x = true → x ∈ made

/-- The steps of one thread alone. -/
def solo [DecidableEq E] [DecidableEq S] :
    Shared E S → Pc E S → List (Outcome E S) → Option (Shared E S × Pc E S)
  | h, pc, [] => some (h, pc)
  | h, pc, outcome :: outcomes =>
    match step h pc outcome with
    | some (.step h' pc') => solo h' pc' outcomes
    | _ => none

/-- An iteration whose call of `AcceptEx` succeeds. -/
def iteration (e : E) (x : S) : List (Outcome E S) :=
  [.event e, .silent, .silent, .session x true false, .silent, .silent, .acceptEx true 0,
    .silent, .silent]

section

variable [DecidableEq W] [DecidableEq E] [DecidableEq S]
variable {main w : W} {maxSessionCount : ℤ} {i : ℕ} {t : Server W E S} {h h' : Shared E S}
  {pc pc' : Pc E S}

theorem exec_solo {outcomes : List (Outcome E S)} (hrunning : t.crashed = false)
    (hsolo : solo t.shared (t.pc w) outcomes = some (h, pc)) :
    (machine W E S main maxSessionCount).exec t (outcomes.map (.run w)) =
      some (t.after w h pc) := by
  induction outcomes generalizing t with
  | nil =>
    cases hsolo
    simp only [List.map_nil, Machine.exec, Server.after, update_eq_self]
  | cons outcome outcomes ih =>
    simp only [solo] at hsolo
    split at hsolo
    case h_1 h' pc' hstep =>
      have hnext : (machine W E S main maxSessionCount).step t (.run w outcome) =
          some (t.after w h' pc') := by
        simp only [machine, Server.step, hrunning, hstep, Bool.false_eq_true, if_false]
      have hrest := ih (t := t.after w h' pc') hrunning (by
        simp only [Server.after, update_self]
        exact hsolo)
      rw [List.map_cons, Machine.exec, hnext, Option.bind_some, hrest]
      simp only [Server.after, update_idem]
    case h_2 => cases hsolo

/-- An iteration of `StartAccept` leaves one more call of `AcceptEx` in flight. -/
theorem solo_iteration {e : E} {x : S} (hi : (i : ℤ) < h.service.maxSessionCount)
    (hfresh : e ∉ h.acceptEvents) (hnew : h.created x = false) :
    ∃ h', solo h (.loop i) (iteration e x) = some (h', .loop (i + 1)) ∧
      h'.service = h.service ∧ h'.pending = h.pending ++ [(e, x)] ∧
      h'.created = update h.created x true := by
  simp only [solo, iteration, step, hi, hfresh, hnew, Service.createSession, Caller.resume,
    Bool.true_eq_false, not_false_eq_true, and_self, false_and, ↓reduceIte, Option.some.injEq,
    Prod.mk.injEq, and_true, exists_eq_left']

theorem Looping.next [Infinite E] [Infinite S] (hloop : Looping main maxSessionCount i t)
    (hi : (i : ℤ) < maxSessionCount) :
    ∃ as t', (machine W E S main maxSessionCount).exec t as = some t' ∧
      Looping main maxSessionCount (i + 1) t' := by
  obtain ⟨hpc, hlimit, hpending, hrunning, made, hmade⟩ := hloop
  obtain ⟨e, he⟩ := Infinite.exists_notMem_finset t.shared.acceptEvents.toFinset
  obtain ⟨x, hx⟩ := Infinite.exists_notMem_finset made
  have hfresh : e ∉ t.shared.acceptEvents := fun hmem => he (List.mem_toFinset.mpr hmem)
  have hnew : t.shared.created x = false := by
    by_contra hcreated
    exact hx (hmade x (by simpa using hcreated))
  obtain ⟨h, hsolo, hservice, hposted, hcreated⟩ := solo_iteration (hlimit ▸ hi) hfresh hnew
  have hexec : (machine W E S main maxSessionCount).exec t ((iteration e x).map (.run main)) =
      some (t.after main h (.loop (i + 1))) := exec_solo hrunning (by rw [hpc, hsolo])
  rw [hpending] at hposted
  have hcomplete : (machine W E S main maxSessionCount).step (t.after main h (.loop (i + 1)))
      (.complete e x 0 0) = some ((t.after main h (.loop (i + 1))).complete e x 0 0) := by
    refine if_pos ⟨hrunning, ?_⟩
    simp only [Server.after, hposted]
    exact List.mem_singleton.mpr rfl
  refine ⟨(iteration e x).map (.run main) ++ [.complete e x 0 0],
    (t.after main h (.loop (i + 1))).complete e x 0 0, ?_, ?_⟩
  · rw [Machine.exec_append, hexec, Option.bind_some, Machine.exec_singleton, hcomplete]
  · refine ⟨update_self .., ?_, ?_, hrunning, insert x made, fun y hy => ?_⟩
    · exact (congrArg Service.maxSessionCount hservice).trans hlimit
    · simp only [Server.complete, Server.after, hposted, List.nil_append, List.erase_cons_head]
    · by_cases hyx : y = x
      · exact hyx ▸ Finset.mem_insert_self ..
      · simp only [Server.complete, Server.after, hcreated, update_of_ne hyx] at hy
        exact Finset.mem_insert_of_mem (hmade y hy)

theorem exists_looping (W E S : Type) [DecidableEq W] [DecidableEq E] [DecidableEq S] [Infinite E]
    [Infinite S] (main : W) (maxSessionCount : ℤ) (hi : (i : ℤ) ≤ maxSessionCount) :
    ∃ as t, (machine W E S main maxSessionCount).Run Machine.Any as t ∧
      Looping main maxSessionCount i t := by
  induction i with
  | zero =>
    have hmain : (machine W E S main maxSessionCount).start.pc main = .setup .createSocket := by
      simp only [machine, update_self]
    have hexec : (machine W E S main maxSessionCount).exec
        (machine W E S main maxSessionCount).start
        ((List.replicate 6 (.succeeds true)).map (.run main)) =
          some ((machine W E S main maxSessionCount).start.after main
            (machine W E S main maxSessionCount).start.shared (.loop 0)) :=
      exec_solo rfl (by rw [hmain]; rfl)
    refine ⟨_, _, Machine.run_of_exec hexec, update_self .., rfl, rfl, rfl, ∅, fun x hx => ?_⟩
    exact absurd hx Bool.false_ne_true
  | succ i ih =>
    obtain ⟨as, t, hrun, hloop⟩ := ih (by omega)
    obtain ⟨bs, t', hexec, hloop'⟩ := hloop.next (by omega)
    exact ⟨as ++ bs, t', hrun.append_exec hexec, hloop'⟩

/-- However many accepts `GetMaxSessionCount` allows, `StartAccept` may succeed and all of them
may be completed. -/
theorem exists_accepted (W E S : Type) [DecidableEq W] [DecidableEq E] [DecidableEq S] [Infinite E]
    [Infinite S] (main : W) (hcount : 0 ≤ maxSessionCount) :
    ∃ as t, (machine W E S main maxSessionCount).exec
        (machine W E S main maxSessionCount).start as = some t ∧
      t.shared.returned = some true ∧ t.shared.pending = [] ∧ t.crashed = false := by
  have hle : (maxSessionCount.toNat : ℤ) ≤ maxSessionCount := by omega
  obtain ⟨as, t, hrun, hpc, hlimit, hpending, hrunning, -⟩ :=
    exists_looping W E S main maxSessionCount hle
  have hstep : (machine W E S main maxSessionCount).step t (.run main .silent) =
      some (t.after main { t.shared with returned := some true } .idle) := by
    simp [machine, Server.step, step, hpc, hlimit, hrunning]
  have hexec := (hrun.snoc trivial hstep).exec_eq
  exact ⟨_, _, hexec, rfl, hpending, hrunning⟩

end

namespace Process

variable [Fintype W] [DecidableEq W] [DecidableEq E] [DecidableEq S]

/-- The service is dropped by all users after all accepts have been completed. -/
theorem exists_dropped [Infinite E] [Infinite S] (main : W) {maxSessionCount : ℤ}
    (hcount : 0 ≤ maxSessionCount) :
    ∃ as s, (machine W E S main maxSessionCount).Run Machine.Any as s ∧
      s.start = .returned true ∧ s.Dropped := by
  obtain ⟨as, t, hexec, hreturned, hpending, hrunning⟩ := exists_accepted W E S main hcount
  have hstart : (machine W E S main maxSessionCount).step
      (machine W E S main maxSessionCount).start (.start true) =
        some {
          server := (Listener.machine W E S main maxSessionCount).start
          start := .startAccept
          _listener := true
          _service := true
          listenerAlive := true } := rfl
  have hrun : (machine W E S main maxSessionCount).Run Machine.Any [.start true] _ :=
    Machine.Run.start.snoc trivial hstart
  have hrun := hrun.append_exec (exec_server hexec)
  have hdrop : (machine W E S main maxSessionCount).exec
      { server := t
        start := .startAccept
        _listener := true
        _service := true
        listenerAlive := true } [.startReturns, .closeService, .drop] =
          some {
            server := t
            start := .returned true
            _listener := true
            _service := true
            outside := 0
            listenerAlive := true
            closed := true } := by
    simp [Machine.exec, machine, step, hreturned, closeService]
  exact ⟨_, _, hrun.append_exec hdrop, rfl, rfl, hpending, rfl⟩

/-- The service and its listener are never torn down. In every state after `Start` has returned
true the service has one reference besides those of its users, and the listener one besides those
of its events and of the threads in `Dispatch`: they keep each other alive, whatever happens then.
The users may have dropped all that they have, for every maximum of sessions. -/
theorem never_torn_down [Infinite E] [Infinite S] (main : W) (maxSessionCount : ℤ) :
    (∀ as s, (machine W E S main maxSessionCount).Run Machine.Any as s → s.start = .returned true →
      s.serviceCount = s.outside + 1 ∧
      s.listenerCount = 1 + maxSessionCount.toNat + ∑ w, (s.server.pc w).listeners ∧
      ∀ as' s', (machine W E S main maxSessionCount).exec s as' = some s' →
        (0 < s'.serviceCount ∧ 0 < s'.listenerCount) ∧
          s'.serviceAlive = true ∧ s'.listenerAlive = true) ∧
    (0 ≤ maxSessionCount → ∃ as s, (machine W E S main maxSessionCount).Run Machine.Any as s ∧
      s.start = .returned true ∧ s.Dropped) := by
  refine ⟨fun as s hrun hstart => ?_, exists_dropped main⟩
  have hstarted := (inv_run hrun).started (by rw [hstart]; rfl)
  refine ⟨?_, hstarted.listenerCount hstart, fun as' s' hexec => ?_⟩
  · rw [hstarted.serviceCount, hstart]
    rfl
  · have hstarted' := started_exec hrun hstart hexec
    refine ⟨⟨?_, hstarted'.listenerCount_pos⟩, hstarted'.serviceAlive, hstarted'.listenerAlive⟩
    rw [hstarted'.serviceCount]
    exact Nat.succ_pos _

theorem never_torn_down_hundred : ∃ as s,
    (machine (Fin 6) ℕ ℕ 0 100).Run Machine.Any as s ∧ s.Dropped ∧
      s.serviceCount = 1 ∧ 100 < s.listenerCount := by
  obtain ⟨hkept, hdropped⟩ := never_torn_down (E := ℕ) (S := ℕ) (0 : Fin 6) 100
  obtain ⟨as, s, hrun, hstart, hdropped⟩ := hdropped (by decide)
  obtain ⟨hservice, hlistener, -⟩ := hkept as s hrun hstart
  refine ⟨as, s, hrun, hdropped, ?_, ?_⟩
  · rw [hservice, hdropped.2.2]
  · have hcount : (100 : ℤ).toNat = 100 := rfl
    omega

/-- One session at most: two accepts are completed, and the last reference is dropped. -/
def dropped : List (Act Bool Unit (Fin 3)) :=
  .start true :: (rearmed 0 1 2).map .server ++
    [.server (.complete () 2 0 0), .startReturns, .closeService, .drop]

theorem not_torn_down : ¬ ∀ as s,
    (machine Bool Unit (Fin 3) false 1).Run Machine.Any as s → s.start = .returned true →
      s.Dropped → ∃ as' s', (machine Bool Unit (Fin 3) false 1).exec s as' = some s' ∧
        s'.serviceCount = 0 ∧ s'.listenerCount = 0 := by
  intro h
  have hcheck : ((machine Bool Unit (Fin 3) false 1).exec (machine Bool Unit (Fin 3) false 1).start
      dropped).any fun s =>
        s.start = .returned true ∧ s.closed = true ∧ s.server.shared.pending = [] ∧
          s.outside = 0 := by
    decide
  obtain ⟨s, hexec, hprop⟩ := (Option.any_eq_true ..).mp hcheck
  obtain ⟨hstart, hdropped⟩ := of_decide_eq_true hprop
  have hrun := Machine.run_of_exec hexec
  obtain ⟨as', s', hexec', -, hzero⟩ := h dropped s hrun hstart hdropped
  have hkept := (started_exec hrun hstart hexec').listenerCount_pos
  omega

end Process

end CppServer.Listener
