import CppServer.Base.Machine
import CppServer.Service

namespace CppServer.Service

open Base

variable {S : Type}

def getCurrentSessionCount (service : Service S) : ℤ := service.sessionCount

def getMaxSessionCount (service : Service S) : ℤ := service.maxSessionCount

/-- The calls of all threads, one after the other as they get the lock. -/
inductive Call (S : Type)
  | addSession (session : S)
  | releaseSession (session : S)
deriving DecidableEq

variable [DecidableEq S]

/-- A service with its limit. A call that crashes is no step. -/
def machine (S : Type) [DecidableEq S] (maxSessionCount : ℤ) : Machine (Service S) (Call S) where
  start := { maxSessionCount }
  step service call :=
    match call with
    | .addSession session => some (service.addSession session)
    | .releaseSession session => service.releaseSession session

omit [DecidableEq S] in
/-- The count is that of the sessions, and within the limit. -/
def Truthful (service : Service S) : Prop :=
  service.getCurrentSessionCount = service.sessions.card ∧
    service.getCurrentSessionCount ≤ service.getMaxSessionCount

/-- A session is added that is not there yet, and only while there is room. -/
def Call.Admitted (service : Service S) : Call S → Prop
  | .addSession session =>
    session ∉ service.sessions ∧ service.getCurrentSessionCount < service.getMaxSessionCount
  | .releaseSession _ => True

variable {service service' : Service S} {session : S}

theorem truthful_start {maxSessionCount : ℤ} :
    (machine S maxSessionCount).start.Truthful ↔ 0 ≤ maxSessionCount := by
  simp [machine, Truthful, getCurrentSessionCount, getMaxSessionCount]

/-- `AddSession` counts the session whether or not the set takes it. -/
theorem Truthful.addSession (htrue : service.Truthful) :
    (service.addSession session).Truthful ↔ (Call.addSession session).Admitted service := by
  obtain ⟨hcount, hle⟩ := htrue
  simp only [Truthful, Service.addSession, Call.Admitted, getCurrentSessionCount,
    getMaxSessionCount] at *
  constructor
  · rintro ⟨hcount', hle'⟩
    refine ⟨fun hmem => ?_, by omega⟩
    rw [Finset.insert_eq_of_mem hmem] at hcount'
    omega
  · rintro ⟨hmem, hroom⟩
    rw [Finset.card_insert_of_notMem hmem]
    push_cast
    omega

/-- `ReleaseSession` counts what it erases. -/
theorem Truthful.releaseSession (htrue : service.Truthful)
    (hrelease : service.releaseSession session = some service') : service'.Truthful := by
  obtain ⟨hcount, hle⟩ := htrue
  unfold Service.releaseSession at hrelease
  split at hrelease
  case isTrue hmem =>
    cases hrelease
    have hcard := Finset.card_erase_add_one hmem
    simp only [Truthful, getCurrentSessionCount, getMaxSessionCount] at *
    omega
  case isFalse => cases hrelease

theorem Truthful.step {maxSessionCount : ℤ} {call : Call S} (htrue : service.Truthful)
    (hstep : (machine S maxSessionCount).step service call = some service') :
    service'.Truthful ↔ call.Admitted service := by
  cases call with
  | addSession session =>
    cases hstep
    exact htrue.addSession
  | releaseSession session => exact iff_of_true (htrue.releaseSession hstep) trivial

/-- The count is that of the sessions and within the limit in all states of a run exactly if the
limit is not negative and every session is added while it is absent and there is room. -/
theorem truthful_iff {maxSessionCount : ℤ} {calls : List (Call S)}
    (hrun : (machine S maxSessionCount).Run Machine.Any calls service) :
    (machine S maxSessionCount).Always calls (fun _ service => service.Truthful) ↔
      0 ≤ maxSessionCount ∧
        (machine S maxSessionCount).Each calls (fun _ service call => call.Admitted service) := by
  have hiff (hstart : 0 ≤ maxSessionCount) :=
    hrun.always_iff_each (P := fun _ service => service.Truthful) (truthful_start.mpr hstart)
      fun _ _ _ _ _ htrue hstep => htrue.step hstep
  constructor
  · intro halways
    have hstart := truthful_start.mp (halways [] _ List.nil_prefix rfl)
    exact ⟨hstart, (hiff hstart).mp halways⟩
  · rintro ⟨hstart, hadmitted⟩
    exact (hiff hstart).mpr hadmitted

instance Call.decidableAdmitted (service : Service S) (call : Call S) :
    Decidable (call.Admitted service) :=
  match call with
  | .addSession _ => inferInstanceAs (Decidable (_ ∧ _))
  | .releaseSession _ => instDecidableTrue

/-- Three sessions, of which two are there at a time. -/
def twoAtATime : List (Call ℕ) := [.addSession 1, .addSession 2, .releaseSession 1, .addSession 3]

theorem truthful_twoAtATime :
    (machine ℕ 2).Always twoAtATime fun _ service => service.Truthful := by
  have hexec : ((machine ℕ 2).exec (machine ℕ 2).start twoAtATime).isSome := by decide
  obtain ⟨service, hservice⟩ := Option.isSome_iff_exists.mp hexec
  exact (truthful_iff (Machine.run_of_exec hservice)).mpr
    ⟨by decide, Machine.each_of_check (by decide)⟩

/-- A session that is added twice counts twice, and one is added to a service that is full. -/
theorem not_truthful :
    (∃ service : Service ℕ, (machine ℕ 2).exec (machine ℕ 2).start
        [.addSession 1, .addSession 1] = some service ∧
      service.getCurrentSessionCount = 2 ∧ service.sessions.card = 1) ∧
    ∃ service : Service ℕ, (machine ℕ 1).exec (machine ℕ 1).start
        [.addSession 1, .addSession 2] = some service ∧
      service.getCurrentSessionCount = 2 ∧ service.getMaxSessionCount = 1 :=
  ⟨⟨_, rfl, by decide, by decide⟩, ⟨_, rfl, by decide, by decide⟩⟩

end CppServer.Service
