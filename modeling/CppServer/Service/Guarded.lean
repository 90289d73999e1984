import CppServer.Lock.Guard
import CppServer.Service.Sessions

namespace CppServer.Service

open Base

/-- Where a thread is in the body of `AddSession` or `ReleaseSession`, before a load or a store of
the count or of the set, with what it has loaded. -/
inductive Body (S : Type)
  | addCountLoad (session : S)
  | addCountStore (session : S) (sessionCount : ℤ)
  | insertLoad (session : S)
  | insertStore (session : S) (sessions : Finset S)
  | eraseLoad (session : S)
  | eraseStore (session : S) (sessions : Finset S)
  | releaseCountLoad
  | releaseCountStore (sessionCount : ℤ)
deriving DecidableEq

variable {S : Type} [DecidableEq S]

/-- The two functions behind their `WRITE_LOCK`, access by access. -/
def body (S : Type) [DecidableEq S] : Section (Call S) (Body S) (Service S) Cause where
  enter
    | .addSession session => .addCountLoad session
    | .releaseSession session => .eraseLoad session
  step
    -- AddSession
    | .addCountLoad session, service =>
      .ok (service, some (.addCountStore session service.sessionCount))
    | .addCountStore session sessionCount, service =>
      .ok ({ service with sessionCount := sessionCount + 1 }, some (.insertLoad session))
    | .insertLoad session, service => .ok (service, some (.insertStore session service.sessions))
    | .insertStore session sessions, service =>
      .ok ({ service with sessions := insert session sessions }, none)
    -- ReleaseSession
    | .eraseLoad session, service => .ok (service, some (.eraseStore session service.sessions))
    | .eraseStore session sessions, service =>
      -- `erase` leaves the set alone when it returns 0
      if session ∈ sessions then
        .ok ({ service with sessions := sessions.erase session }, some .releaseCountLoad)
      else .error .assertCrash
    | .releaseCountLoad, service => .ok (service, some (.releaseCountStore service.sessionCount))
    | .releaseCountStore sessionCount, service =>
      .ok ({ service with sessionCount := sessionCount - 1 }, none)

/-- What the body of a call has made of the service so far. -/
def Halfway (call : Call S) (service : Service S) : Body S → Service S → Prop
  | .addCountLoad session, s => call = .addSession session ∧ s = service
  | .addCountStore session sessionCount, s =>
    call = .addSession session ∧ s = service ∧ sessionCount = service.sessionCount
  | .insertLoad session, s =>
    call = .addSession session ∧ s = { service with sessionCount := service.sessionCount + 1 }
  | .insertStore session sessions, s =>
    call = .addSession session ∧ s = { service with sessionCount := service.sessionCount + 1 } ∧
      sessions = service.sessions
  | .eraseLoad session, s => call = .releaseSession session ∧ s = service
  | .eraseStore session sessions, s =>
    call = .releaseSession session ∧ s = service ∧ sessions = service.sessions
  | .releaseCountLoad, s =>
    ∃ session ∈ service.sessions, call = .releaseSession session ∧
      s = { service with sessions := service.sessions.erase session }
  | .releaseCountStore sessionCount, s =>
    ∃ session ∈ service.sessions, call = .releaseSession session ∧
      s = { service with sessions := service.sessions.erase session } ∧
      sessionCount = service.sessionCount

variable {call : Call S} {service s : Service S} {p : Body S}

theorem halfway_of_reaches (hreach : (body S).Reaches call service p s) :
    Halfway call service p s := by
  refine hreach.invariant ?_ ?_
  · cases call with
    | addSession session => exact ⟨rfl, rfl⟩
    | releaseSession session => exact ⟨rfl, rfl⟩
  · intro p s p' s' hhalf hstep
    cases p <;> simp only [body] at hstep
    case eraseStore session sessions =>
      obtain ⟨hcall, hs, hsessions⟩ := hhalf
      split at hstep <;> cases hstep
      case isTrue hmem =>
        subst hs hsessions
        exact ⟨session, hmem, hcall, rfl⟩
    case addCountLoad session | insertLoad session | eraseLoad session =>
      obtain ⟨hcall, hs⟩ := hhalf
      cases hstep
      exact ⟨hcall, hs, by rw [hs]⟩
    case addCountStore session sessionCount =>
      obtain ⟨hcall, hs, hcount⟩ := hhalf
      cases hstep
      exact ⟨hcall, by rw [hs, hcount]⟩
    case releaseCountLoad =>
      obtain ⟨session, hmem, hcall, hs⟩ := hhalf
      cases hstep
      exact ⟨session, hmem, hcall, hs, by rw [hs]⟩
    all_goals cases hstep

/-- The body of each function does what the function does as one step. -/
theorem body_implements (maxSessionCount : ℤ) : (body S).Implements (machine S maxSessionCount) := by
  rintro call service service' ⟨p, s, hreach, hstep⟩
  have hhalf := halfway_of_reaches hreach
  cases p <;> simp only [body] at hstep
  case insertStore session sessions =>
    obtain ⟨rfl, rfl, rfl⟩ := hhalf
    cases hstep
    rfl
  case releaseCountStore sessionCount =>
    obtain ⟨session, hmem, rfl, rfl, rfl⟩ := hhalf
    cases hstep
    exact if_pos hmem
  case eraseStore => split at hstep <;> cases hstep
  all_goals cases hstep

/-- A body fails only where the function has no step. -/
theorem step_eq_none_of_error (hreach : (body S).Reaches call service p s) {cause : Cause}
    (herror : (body S).step p s = .error cause) (maxSessionCount : ℤ) :
    (machine S maxSessionCount).step service call = none := by
  have hhalf := halfway_of_reaches hreach
  cases p <;> simp only [body] at herror
  case eraseStore session sessions =>
    obtain ⟨rfl, -, rfl⟩ := hhalf
    split at herror <;> cases herror
    case isFalse hmem => exact if_neg hmem
  all_goals cases herror

/-- In a body the count is the one before the call or the one after it. -/
theorem count_of_reaches (hreach : (body S).Reaches call service p s) (maxSessionCount : ℤ) :
    s.getCurrentSessionCount = service.getCurrentSessionCount ∨
      ∃ service', (machine S maxSessionCount).step service call = some service' ∧
        s.getCurrentSessionCount = service'.getCurrentSessionCount := by
  have hhalf := halfway_of_reaches hreach
  cases p with
  | addCountLoad session | eraseLoad session => exact .inl (by rw [hhalf.2])
  | addCountStore session _ | eraseStore session _ => exact .inl (by rw [hhalf.2.1])
  | insertLoad session =>
    obtain ⟨rfl, rfl⟩ := hhalf
    exact .inr ⟨_, rfl, rfl⟩
  | insertStore session _ =>
    obtain ⟨rfl, rfl, -⟩ := hhalf
    exact .inr ⟨_, rfl, rfl⟩
  | releaseCountLoad =>
    obtain ⟨session, -, -, rfl⟩ := hhalf
    exact .inl rfl
  | releaseCountStore _ =>
    obtain ⟨session, -, -, rfl, -⟩ := hhalf
    exact .inl rfl

variable {T : Type} [Fintype T] [DecidableEq T]

/-- Any number of threads that add and release the sessions of one service. -/
def guarded (ids : ThreadIds T) (maxSessionCount : ℤ) :
    Machine (Guarded T (Call S) (Body S) (Service S)) (Guarded.Act T (Call S)) :=
  Guarded.machine ids (body S) (machine S maxSessionCount).start

/-- `AddSession` and `ReleaseSession` are atomic. Under every interleaving of the steps of the lock
and of the bodies, the calls take effect one after the other, each as a whole: the service is what
they make of it when no body is being executed, `ASSERT_CRASH` fails only where the released session
is not there, and what `GetCurrentSessionCount` reads without the lock is the count before or after
the call that has the lock. -/
theorem guarded_calls_atomic {ids : ThreadIds T} {maxSessionCount : ℤ}
    {as : List (Guarded.Act T (Call S))} {s : Guarded T (Call S) (Body S) (Service S)}
    (hrun : (guarded ids maxSessionCount).Run Machine.Any as s) :
    ∃ service, (machine S maxSessionCount).Run Machine.Any
        ((guarded ids maxSessionCount).trace (Guarded.observe (body S))
          (guarded ids maxSessionCount).start as) service ∧
      ((∀ t call p, s.place t ≠ .body call p) → s.data = service) ∧
      (∀ t call p cause, s.place t = .body call p → (body S).step p s.data = .error cause →
        (machine S maxSessionCount).step service call = none) ∧
      (s.data.getCurrentSessionCount = service.getCurrentSessionCount ∨
        ∃ t call p service', s.place t = .body call p ∧
          (machine S maxSessionCount).step service call = some service' ∧
          s.data.getCurrentSessionCount = service'.getCurrentSessionCount) := by
  obtain ⟨service, hatomic, hrefines⟩ :=
    (Guarded.simulation_guarded ids (body_implements maxSessionCount)).run hrun
  refine ⟨service, hatomic, hrefines.outside, fun t call p cause hplace herror => ?_, ?_⟩
  · exact step_eq_none_of_error (hrefines.inside t call p hplace) herror maxSessionCount
  · by_cases hnone : ∀ t call p, s.place t ≠ .body call p
    · exact .inl (by rw [hrefines.outside hnone])
    · push Not at hnone
      obtain ⟨t, call, p, hplace⟩ := hnone
      rcases count_of_reaches (hrefines.inside t call p hplace) maxSessionCount with
        hsame | ⟨service', hstep, hcount⟩
      · exact .inl hsame
      · exact .inr ⟨t, call, p, service', hplace, hstep, hcount⟩

/-- Two threads add a session each; the second one has counted its session and not inserted it. -/
def twoAdd (t u : T) (session session' : S) : List (Guarded.Act T (Call S)) :=
  [.call t (.addSession session), .run t 0, .run t 0, .run t 0, .run t 0,
    .call u (.addSession session'), .run u 0, .run u 0, .run u 0, .run t 0, .run t 0, .run t 0,
    .run t 0, .run t 0, .run t 0, .run t 0, .run u 0, .run u 0, .run u 0, .run u 0]

theorem guarded_calls_atomic_two :
    ∃ s service, (guarded Lock.twoIds 5).exec (guarded Lock.twoIds 5).start (twoAdd 0 1 1 2) = some s ∧
      s.place 1 = .body (.addSession 2) (.insertLoad 2) ∧ s.data.getCurrentSessionCount = 2 ∧
      (machine ℕ 5).Run Machine.Any [.addSession 1] service := by
  have hend : ((guarded Lock.twoIds 5).exec (guarded Lock.twoIds 5).start
      (twoAdd 0 1 1 2)).map (fun s => (s.place 1, s.data.getCurrentSessionCount)) =
        some (.body (.addSession 2) (.insertLoad 2), 2) := by
    decide
  obtain ⟨s, hexec, hs⟩ := Option.map_eq_some_iff.mp hend
  obtain ⟨hplace, hcount⟩ := Prod.mk.inj hs
  obtain ⟨service, hatomic, -, -, -⟩ := guarded_calls_atomic (Machine.run_of_exec hexec)
  have htrace : (guarded Lock.twoIds 5).trace (Guarded.observe (body ℕ)) (guarded Lock.twoIds 5).start
      (twoAdd 0 1 1 2) = [.addSession 1] := by
    decide
  rw [htrace] at hatomic
  exact ⟨s, service, hexec, hplace, hcount, hatomic⟩

end CppServer.Service
