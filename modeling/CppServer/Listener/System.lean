import CppServer.Base.Machine
import CppServer.Listener.Steps

namespace CppServer.Listener

open Function Base

variable {W E S : Type}

/-- The threads over what they share; `crashed` ends the run. -/
structure Server (W E S : Type) where
  shared : Shared E S
  pc : W → Pc E S := fun _ => .idle
  crashed : Bool := false

/-- A label: a thread takes its next step; the system completes a call of `AcceptEx`;
or the application, outside this code, uses a session that it keeps a reference to. -/
inductive Act (W E S : Type)
  | run (w : W) (outcome : Outcome E S)
  | complete (e : E) (session : S) (status bytes : ℕ)
  | addSession (session : S)
  | releaseSession (session : S)
  | forget (session : S)
deriving DecidableEq

/-- The event in the hands of a thread: one that the thread still reads or writes. -/
def Pc.hand : Pc E S → Option E
  | .idle | .setup _ | .loop _ | .unwind _ _ => none
  | .setOwner e _ | .pushBack e _ | .createSession e _ _ | .init e _ _ _ | .setSession e _ _ _
  | .acceptEx e _ _ _ | .dispatch e | .processAccept e | .setUpdateAcceptSocket e _
  | .getpeername e _ | .setNetAddress e _ _ => some e

/-- The event that the next step writes, by `Init` or to its member `session`. -/
def Pc.writes : Pc E S → Option E
  | .init e _ _ _ | .setSession e _ _ _ => some e
  | _ => none

def Caller.locals : Caller S → List S
  | .startAccept _ => []
  | .processAccept session _ => [session]

/-- The sessions that the variables of a thread refer to. -/
def Pc.locals : Pc E S → List S
  | .createSession _ locals caller | .unwind locals caller => locals ++ caller.locals
  | .init _ session locals caller | .setSession _ session locals caller
  | .acceptEx _ session locals caller => session.toList ++ locals ++ caller.locals
  | .setUpdateAcceptSocket _ session | .getpeername _ session
  | .setNetAddress _ session _ => [session]
  | .idle | .setup _ | .loop _ | .setOwner _ _ | .pushBack _ _ | .dispatch _
  | .processAccept _ => []

/-- What the system has been given and not handed back. -/
def Shared.posted (h : Shared E S) : List (E × S) := h.pending ++ h.queue

namespace Server

/-- Whether there is a strong reference to a session. -/
def Referenced (s : Server W E S) (session : S) : Prop :=
  session ∈ s.shared.service.sessions ∨ s.shared.application session = true ∨
    (∃ e, (s.shared.event e).session = some session) ∨ ∃ w, session ∈ (s.pc w).locals

/-- A session is destroyed, and its socket closed, with its last reference. -/
def Destroyed (s : Server W E S) (session : S) : Prop :=
  s.shared.created session = true ∧ ¬ s.Referenced session

variable [DecidableEq W]

/-- The server after a step of one thread. -/
def after (s : Server W E S) (w : W) (shared : Shared E S) (pc : Pc E S) : Server W E S :=
  { s with shared, pc := update s.pc w pc }

variable [DecidableEq E] [DecidableEq S]

/-- The end of a call of `AcceptEx`: its completion is queued. -/
def complete (s : Server W E S) (e : E) (session : S) (status bytes : ℕ) : Server W E S :=
  let overlapped := { (s.shared.event e).overlapped with internal := status, internalHigh := bytes }
  { s with shared := { s.shared with
      pending := s.shared.pending.erase (e, session)
      queue := s.shared.queue ++ [(e, session)]
      event := update s.shared.event e { s.shared.event e with overlapped } } }

def step (s : Server W E S) : Act W E S → Option (Server W E S)
  | .run w outcome =>
    if s.crashed then none
    else match Listener.step s.shared (s.pc w) outcome with
      | none => none
      | some .crash => some { s with crashed := true }
      | some (.step shared pc) => some (s.after w shared pc)
  | .complete e x status bytes =>
    if s.crashed = false ∧ (e, x) ∈ s.shared.pending then some (s.complete e x status bytes)
    else none
  | .addSession x =>
    if s.crashed = false ∧ s.shared.application x = true then
      some { s with shared := { s.shared with service := s.shared.service.addSession x } }
    else none
  | .releaseSession x =>
    if s.crashed = false ∧ s.shared.application x = true then
      match s.shared.service.releaseSession x with
      | none => some { s with crashed := true }
      | some service => some { s with shared := { s.shared with
          service, accepted := update s.shared.accepted x false } }
    else none
  | .forget x =>
    if s.crashed = false ∧ s.shared.application x = true then
      some { s with shared := { s.shared with
        application := update s.shared.application x false } }
    else none

theorem step_run {s s' : Server W E S} {w : W} {outcome : Outcome E S}
    (hstep : step s (.run w outcome) = some s') :
    (Listener.step s.shared (s.pc w) outcome = some .crash ∧ s' = { s with crashed := true }) ∨
      ∃ shared pc, Listener.step s.shared (s.pc w) outcome = some (.step shared pc) ∧
        s' = s.after w shared pc := by
  simp only [step] at hstep
  split at hstep
  case isTrue => cases hstep
  case isFalse =>
    split at hstep
    case h_1 => cases hstep
    case h_2 hcode =>
      cases hstep
      exact .inl ⟨hcode, rfl⟩
    case h_3 shared pc hcode =>
      cases hstep
      exact .inr ⟨shared, pc, hcode, rfl⟩

theorem step_complete {s s' : Server W E S} {e : E} {x : S} {status bytes : ℕ}
    (hstep : step s (.complete e x status bytes) = some s') :
    (e, x) ∈ s.shared.pending ∧ s' = s.complete e x status bytes := by
  simp only [step] at hstep
  split at hstep
  case isTrue h =>
    cases hstep
    exact ⟨h.2, rfl⟩
  case isFalse => cases hstep

/-- What the application does concerns the sessions only. -/
structure Unmoved (s s' : Server W E S) : Prop where
  pc : s'.pc = s.pc
  acceptEvents : s'.shared.acceptEvents = s.shared.acceptEvents
  event : s'.shared.event = s.shared.event
  posted : s'.shared.posted = s.shared.posted
  returned : s'.shared.returned = s.shared.returned
  maxSessionCount : s'.shared.service.maxSessionCount = s.shared.service.maxSessionCount

end Server

/-- Whether a label is of the application. -/
def Act.external : Act W E S → Bool
  | .run _ _ | .complete _ _ _ _ => false
  | .addSession _ | .releaseSession _ | .forget _ => true

variable [DecidableEq W] [DecidableEq E] [DecidableEq S]

theorem Server.step_external {s s' : Server W E S} {a : Act W E S} (ha : a.external = true)
    (hstep : step s a = some s') : s.Unmoved s' := by
  cases a with
  | run | complete => cases ha
  | addSession x =>
    simp only [step] at hstep
    split at hstep <;> cases hstep
    exact ⟨rfl, rfl, rfl, rfl, rfl, rfl⟩
  | releaseSession x =>
    simp only [step] at hstep
    split at hstep
    case isTrue =>
      split at hstep
      case h_1 =>
        cases hstep
        exact ⟨rfl, rfl, rfl, rfl, rfl, rfl⟩
      case h_2 service hservice =>
        cases hstep
        exact ⟨rfl, rfl, rfl, rfl, rfl, (Service.releaseSession_eq hservice).2.2⟩
    case isFalse => cases hstep
  | forget x =>
    simp only [step] at hstep
    split at hstep <;> cases hstep
    exact ⟨rfl, rfl, rfl, rfl, rfl, rfl⟩

/-- The server from the call of `StartAccept` by the thread `main`; that thread and
every other one loops over `Dispatch` otherwise. -/
def machine (W E S : Type) [DecidableEq W] [DecidableEq E] [DecidableEq S]
    (main : W) (maxSessionCount : ℤ) : Machine (Server W E S) (Act W E S) where
  start := { shared := { service := { maxSessionCount } }
             pc := update (fun _ => .idle) main (.setup .createSocket) }
  step := Server.step

end CppServer.Listener
