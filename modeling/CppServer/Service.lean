import Mathlib

namespace CppServer

/-- The sessions of a service. `WRITE_LOCK` makes both of its operations on the set
one step each. The two numbers are of type `int32`; they are integers here, which
is the same while the count stays below 2^31 in size. -/
structure Service (S : Type) where
  sessions : Finset S := ∅
  sessionCount : ℤ := 0
  maxSessionCount : ℤ := 1

namespace Service

variable {S : Type}

/-- `session` is what the factory made; a session that the port does not register is
not handed out. -/
def createSession (session : S) (registered : Bool) : Option S :=
  if registered = false then none else some session

variable [DecidableEq S]

def addSession (service : Service S) (session : S) : Service S :=
  { service with
    sessions := insert session service.sessions
    sessionCount := service.sessionCount + 1 }

/-- Fails where `ASSERT_CRASH` does. -/
def releaseSession (service : Service S) (session : S) : Option (Service S) :=
  if session ∈ service.sessions then
    some { service with
      sessions := service.sessions.erase session
      sessionCount := service.sessionCount - 1 }
  else none

theorem releaseSession_eq {service service' : Service S} {session : S}
    (h : service.releaseSession session = some service') :
    session ∈ service.sessions ∧ service'.sessions = service.sessions.erase session ∧
      service'.maxSessionCount = service.maxSessionCount := by
  unfold releaseSession at h
  split at h
  case isTrue hmem =>
    cases h
    exact ⟨hmem, rfl, rfl⟩
  case isFalse => cases h

theorem releaseSession_eq_none {service : Service S} {session : S}
    (h : service.releaseSession session = none) : session ∉ service.sessions := by
  unfold releaseSession at h
  split at h
  case isTrue => cases h
  case isFalse hmem => exact hmem

end Service

end CppServer
