import CppServer.Service

namespace CppServer

namespace Listener

open Function

inductive EventType
  | connect
  | accept
  | recv
  | send
deriving DecidableEq, Repr

/-- The fields of `OVERLAPPED`; the system writes `Internal` and `InternalHigh`
while the operation is in flight. -/
structure Overlapped where
  hEvent : ℕ := 0
  internal : ℕ := 0
  internalHigh : ℕ := 0
  offset : ℕ := 0
  offsetHigh : ℕ := 0
deriving DecidableEq, Repr

/-- What the owner of an event may be. -/
inductive IocpObject (S : Type)
  | listener
  | session (session : S)
deriving DecidableEq

structure AcceptEvent (S : Type) where
  overlapped : Overlapped := {}
  eventType : EventType := .accept
  owner : Option (IocpObject S) := none
  session : Option S := none

/-- `IocpEvent::Init` -/
def AcceptEvent.init {S : Type} (event : AcceptEvent S) : AcceptEvent S :=
  { event with overlapped := {} }

structure SockAddress where
  address : BitVec 32
  port : BitVec 16
deriving DecidableEq, Repr

def errorIoPending : ℕ := 997

def waitTimeout : ℕ := 258

/-- `STATUS_PENDING`, which the system keeps in `Internal` until the completion. -/
def statusPending : ℕ := 0x103

/-- Everything the threads share: the listener, its service and events, the sessions,
and what the system has been given. `pending` are the calls of `AcceptEx` in flight and
`queue` the completions not dequeued yet, each with the session whose socket and buffer
the call was given. The last three members are bookkeeping: the sessions that
the factory has made, those the application keeps a reference to, and those whose
`ProcessAccept` has ended with a connection and that have not been released since. -/
structure Shared (E S : Type) where
  service : Service S
  acceptEvents : List E := []
  event : E → AcceptEvent S := fun _ => {}
  netAddress : S → Option SockAddress := fun _ => none
  pending : List (E × S) := []
  queue : List (E × S) := []
  returned : Option Bool := none
  created : S → Bool := fun _ => false
  application : S → Bool := fun _ => false
  accepted : S → Bool := fun _ => false

/-- The calls of `StartAccept` before its loop, each of which may fail. -/
inductive Setup
  | createSocket
  | register
  | setReuseAddress
  | setLinger
  | bind
  | listen
deriving DecidableEq, Repr

def Setup.next : Setup → Option Setup
  | .createSocket => some .register
  | .register => some .setReuseAddress
  | .setReuseAddress => some .setLinger
  | .setLinger => some .bind
  | .bind => some .listen
  | .listen => none

/-- Who called the outermost `RegisterAccept`: the loop of `StartAccept`, or
`ProcessAccept` with its local `session`, after both checks or after a failed one. -/
inductive Caller (S : Type)
  | startAccept (i : ℕ)
  | processAccept (session : S) (connected : Bool)
deriving DecidableEq

/-- Where a thread is. In `RegisterAccept`, `locals` are the variables `session` of the
calls that wait for a recursive one, innermost first. -/
inductive Pc (E S : Type)
  | idle
  | setup (stage : Setup)
  | loop (i : ℕ)
  | setOwner (e : E) (i : ℕ)
  | pushBack (e : E) (i : ℕ)
  | createSession (e : E) (locals : List S) (caller : Caller S)
  | init (e : E) (session : Option S) (locals : List S) (caller : Caller S)
  | setSession (e : E) (session : Option S) (locals : List S) (caller : Caller S)
  | acceptEx (e : E) (session : Option S) (locals : List S) (caller : Caller S)
  | unwind (locals : List S) (caller : Caller S)
  | dispatch (e : E)
  | processAccept (e : E)
  | setUpdateAcceptSocket (e : E) (session : S)
  | getpeername (e : E) (session : S)
  | setNetAddress (e : E) (session : S) (sockAddress : SockAddress)
deriving DecidableEq

/-- What the outside answers to a step: nothing; whether a call succeeded; the event
from `xnew`; the session from the factory, whether the port registered it, and whether the
application kept a reference to it as well; the result and error code of `AcceptEx`; the address from
`getpeername`; a packet from `GetQueuedCompletionStatus`, with the error code if its
operation failed; or its timeout. -/
inductive Outcome (E S : Type)
  | silent
  | succeeds (ok : Bool)
  | event (e : E)
  | session (session : S) (registered keep : Bool)
  | acceptEx (ok : Bool) (errorCode : ℕ)
  | peer (sockAddress : Option SockAddress)
  | packet (e : E) (session : S) (errorCode : Option ℕ)
  | timeout
deriving DecidableEq

/-- What a step leads to; `crash` is a null pointer dereferenced or a failed
`ASSERT_CRASH`. -/
inductive Next (E S : Type)
  | step (h : Shared E S) (pc : Pc E S)
  | crash

variable {E S : Type} [DecidableEq E] [DecidableEq S]

/-- The accepted sessions once a thread has returned to the loop over `Dispatch`. -/
def Caller.accepts (accepted : S → Bool) : Caller S → S → Bool
  | .processAccept session true => update accepted session true
  | _ => accepted

/-- The place after the outermost `RegisterAccept` has returned. -/
def Caller.resume : Caller S → Pc E S
  | .startAccept i => .loop (i + 1)
  | .processAccept _ _ => .idle

instance decidableMemPackets (pair : E × S) (packets : List (E × S)) : Decidable (pair ∈ packets) :=
  List.instDecidableMemOfLawfulBEq pair packets

/-- One step of `StartAccept`, `RegisterAccept`, `ProcessAccept` or `Dispatch`; `none`
says that the outcome does not fit the place. The service starts its own listener, so
the null check of `StartAccept` never fires. -/
def step (h : Shared E S) : Pc E S → Outcome E S → Option (Next E S)
  | .setup stage, .succeeds ok =>
    match ok, stage.next with
    | false, _ => some (.step { h with returned := some false } .idle)
    | true, some next => some (.step h (.setup next))
    | true, none => some (.step h (.loop 0))
  | .loop i, .event e =>
    if (i : ℤ) < h.service.maxSessionCount ∧ e ∉ h.acceptEvents then
      some (.step { h with event := update h.event e {} } (.setOwner e i))
    else none
  | .loop i, .silent =>
    if (i : ℤ) < h.service.maxSessionCount then none
    else some (.step { h with returned := some true } .idle)
  | .setOwner e i, .silent =>
    let event := { h.event e with owner := some .listener }
    some (.step { h with event := update h.event e event } (.pushBack e i))
  | .pushBack e i, .silent =>
    let acceptEvents := h.acceptEvents ++ [e]
    some (.step { h with acceptEvents } (.createSession e [] (.startAccept i)))
  | .createSession e locals caller, .session x registered keep =>
    if h.created x = false then
      let created := update h.created x true
      let application := update h.application x keep
      some (.step { h with created, application }
        (.init e (Service.createSession x registered) locals caller))
    else none
  | .init e session locals caller, .silent =>
    let event := (h.event e).init
    some (.step { h with event := update h.event e event } (.setSession e session locals caller))
  | .setSession e session locals caller, .silent =>
    let event := { h.event e with session }
    some (.step { h with event := update h.event e event } (.acceptEx e session locals caller))
  | .acceptEx e session locals caller, .acceptEx ok errorCode =>
    match session with
    | none => some .crash
    | some x =>
      if ok = false ∧ errorCode ≠ errorIoPending then
        some (.step h (.createSession e (x :: locals) caller))
      else
        let overlapped := { (h.event e).overlapped with internal := statusPending }
        let event := { h.event e with overlapped }
        some (.step { h with
          pending := h.pending ++ [(e, x)]
          event := update h.event e event } (.unwind (x :: locals) caller))
  | .unwind (_ :: locals) caller, .silent => some (.step h (.unwind locals caller))
  | .unwind [] caller, .silent =>
    some (.step { h with accepted := caller.accepts h.accepted } caller.resume)
  -- `GetQueuedCompletionStatus`; `WAIT_TIMEOUT` is its answer when nothing was dequeued
  | .idle, .packet e x errorCode =>
    if (e, x) ∈ h.queue ∧ errorCode ≠ some waitTimeout then
      some (.step { h with queue := h.queue.erase (e, x) } (.dispatch e))
    else none
  | .idle, .timeout => some (.step h .idle)
  | .dispatch e, .silent =>
    match (h.event e).owner with
    | none => some .crash
    | some (.session _) => some (.step h .idle)
    | some .listener =>
      if (h.event e).eventType = .accept then some (.step h (.processAccept e)) else some .crash
  | .processAccept e, .silent =>
    match (h.event e).session with
    | none => some .crash
    | some x => some (.step h (.setUpdateAcceptSocket e x))
  | .setUpdateAcceptSocket e x, .succeeds ok =>
    if ok then some (.step h (.getpeername e x))
    else some (.step h (.createSession e [] (.processAccept x false)))
  | .getpeername e x, .peer sockAddress =>
    match sockAddress with
    | none => some (.step h (.createSession e [] (.processAccept x false)))
    | some sockAddress => some (.step h (.setNetAddress e x sockAddress))
  | .setNetAddress e x sockAddress, .silent =>
    let netAddress := update h.netAddress x (some sockAddress)
    some (.step { h with netAddress } (.createSession e [] (.processAccept x true)))
  | _, _ => none

end Listener

end CppServer
