import CppServer.Listener.System

namespace CppServer.Listener

open Function Base

variable {W E S : Type}

/-- The last step of `ProcessAccept` for a session that passed `SetUpdateAcceptSocket`
and `getpeername`. -/
def Pc.accepts : Pc E S → Option S
  | .unwind [] (.processAccept session true) => some session
  | _ => none

/-- The session that a step ends to accept. -/
def Act.accepts (s : Server W E S) : Act W E S → Option S
  | .run w _ => (s.pc w).accepts
  | _ => none

variable [DecidableEq S]

/-- Whether the application's last call about a session is `AddSession`. -/
def Act.addedAfter (session : S) (before : Bool) : Act W E S → Bool
  | .addSession x => before || session == x
  | .releaseSession x => before && session != x
  | .run _ _ | .complete _ _ _ _ | .forget _ => before

def added (as : List (Act W E S)) (session : S) : Bool :=
  as.foldl (fun before a => a.addedAfter session before) false

instance [DecidableEq E] [Fintype E] [Fintype W] (s : Server W E S) (session : S) :
    Decidable (s.Destroyed session) :=
  inferInstanceAs (Decidable (_ ∧ ¬ (_ ∨ _ ∨ _ ∨ _)))

/-- Accepted sessions are in the service's set until they are released, and are not
destroyed. -/
def Kept (s : Server W E S) : Prop :=
  ∀ x, s.shared.accepted x = true → x ∈ s.shared.service.sessions ∧ ¬ s.Destroyed x

omit [DecidableEq S] in
theorem Server.not_destroyed {s : Server W E S} {x : S} (hmem : x ∈ s.shared.service.sessions) :
    ¬ s.Destroyed x :=
  fun hdestroyed => hdestroyed.2 (.inl hmem)

variable [DecidableEq E]

/-- The code never touches the service's set, and accepts at one place only. -/
theorem step_sessions {h h' : Shared E S} {pc pc' : Pc E S} {outcome : Outcome E S}
    (hstep : step h pc outcome = some (.step h' pc')) :
    h'.service = h.service ∧
      ((pc.accepts = none ∧ h'.accepted = h.accepted) ∨
        ∃ x, pc.accepts = some x ∧ h'.accepted = update h.accepted x true) := by
  unfold step at hstep
  split at hstep
  case h_11 caller =>
    cases hstep
    refine ⟨rfl, ?_⟩
    cases caller with
    | startAccept => exact .inl ⟨rfl, rfl⟩
    | processAccept x connected =>
      cases connected with
      | false => exact .inl ⟨rfl, rfl⟩
      | true => exact .inr ⟨x, rfl, rfl⟩
  all_goals
    repeat' split at hstep
    all_goals first | (cases hstep; done) | (cases hstep; exact ⟨rfl, .inl ⟨rfl, rfl⟩⟩)

theorem step_ne_crash {h : Shared E S} {pc : Pc E S} {outcome : Outcome E S} {x : S}
    (hx : pc.accepts = some x) : step h pc outcome ≠ some .crash := by
  unfold Pc.accepts at hx
  split at hx
  case h_1 => cases outcome <;> nofun
  case h_2 => cases hx

variable [DecidableEq W] {main : W} {maxSessionCount : ℤ}

theorem Server.mem_sessions_step {s s' : Server W E S} {a : Act W E S}
    (hstep : s.step a = some s') {x : S} {before : Bool}
    (hbefore : x ∈ s.shared.service.sessions ↔ before = true) :
    x ∈ s'.shared.service.sessions ↔ a.addedAfter x before = true := by
  cases a with
  | run w outcome =>
    rcases step_run hstep with ⟨-, rfl⟩ | ⟨h, pc, hcode, rfl⟩
    · exact hbefore
    · simp only [after, (step_sessions hcode).1]
      exact hbefore
  | complete e y status bytes =>
    obtain ⟨-, rfl⟩ := step_complete hstep
    exact hbefore
  | addSession y =>
    simp only [step] at hstep
    split at hstep <;> cases hstep
    simp only [Service.addSession, Finset.mem_insert, Act.addedAfter, Bool.or_eq_true, beq_iff_eq,
      hbefore, or_comm]
  | releaseSession y =>
    simp only [step] at hstep
    split at hstep
    case isTrue =>
      split at hstep
      case h_1 hservice =>
        cases hstep
        have hy : y ∉ s.shared.service.sessions := Service.releaseSession_eq_none hservice
        simp only [Act.addedAfter, Bool.and_eq_true, bne_iff_ne, ← hbefore]
        exact ⟨fun hx => ⟨hx, fun h => hy (h ▸ hx)⟩, And.left⟩
      case h_2 service hservice =>
        cases hstep
        simp only [(Service.releaseSession_eq hservice).2.1, Finset.mem_erase, Act.addedAfter,
          Bool.and_eq_true, bne_iff_ne, hbefore, and_comm]
    case isFalse => cases hstep
  | forget y =>
    simp only [step] at hstep
    split at hstep <;> cases hstep
    exact hbefore

/-- The service's set holds what the application has put there. -/
theorem mem_sessions_iff {as : List (Act W E S)} {s : Server W E S}
    (hrun : (machine W E S main maxSessionCount).Run Machine.Any as s) (x : S) :
    x ∈ s.shared.service.sessions ↔ added as x = true := by
  induction hrun with
  | start => simp [machine, added]
  | snoc _ _ hstep ih =>
    rw [added, List.foldl_append]
    exact Server.mem_sessions_step hstep ih

/-- A session that is accepted after a step was accepted before and stays where it was,
or the step accepts it. -/
theorem Server.accepted_step {s s' : Server W E S} {a : Act W E S} (hstep : s.step a = some s')
    {x : S} (hx : s'.shared.accepted x = true) :
    (a.accepts s = some x ∧ s'.shared.service.sessions = s.shared.service.sessions) ∨
      (s.shared.accepted x = true ∧
        (x ∈ s.shared.service.sessions → x ∈ s'.shared.service.sessions)) := by
  cases a with
  | run w outcome =>
    rcases step_run hstep with ⟨-, rfl⟩ | ⟨h, pc, hcode, rfl⟩
    · exact .inr ⟨hx, id⟩
    · obtain ⟨hservice, ⟨-, haccepted⟩ | ⟨y, hy, haccepted⟩⟩ := step_sessions hcode
      · simp only [after, haccepted, hservice] at hx ⊢
        exact .inr ⟨hx, id⟩
      · simp only [after, haccepted, hservice, update_apply] at hx ⊢
        split at hx
        case isTrue hxy => exact .inl ⟨hxy ▸ hy, trivial⟩
        case isFalse => exact .inr ⟨hx, id⟩
  | complete e y status bytes =>
    obtain ⟨-, rfl⟩ := step_complete hstep
    exact .inr ⟨hx, id⟩
  | addSession y =>
    simp only [step] at hstep
    split at hstep <;> cases hstep
    exact .inr ⟨hx, Finset.mem_insert_of_mem⟩
  | releaseSession y =>
    simp only [step] at hstep
    split at hstep
    case isTrue =>
      split at hstep
      case h_1 =>
        cases hstep
        exact .inr ⟨hx, id⟩
      case h_2 service hservice =>
        cases hstep
        simp only [update_apply] at hx
        split at hx
        case isTrue => cases hx
        case isFalse hxy =>
          refine .inr ⟨hx, fun hmem => ?_⟩
          rw [(Service.releaseSession_eq hservice).2.1]
          exact Finset.mem_erase.mpr ⟨hxy, hmem⟩
    case isFalse => cases hstep
  | forget y =>
    simp only [step] at hstep
    split at hstep <;> cases hstep
    exact .inr ⟨hx, id⟩

/-- The step that ends `ProcessAccept` accepts its session. -/
theorem Server.accepts_step {s s' : Server W E S} {a : Act W E S} (hstep : s.step a = some s')
    {x : S} (hx : a.accepts s = some x) :
    s'.shared.accepted x = true ∧ s'.shared.service.sessions = s.shared.service.sessions := by
  cases a with
  | run w outcome =>
    rcases step_run hstep with ⟨hcrash, -⟩ | ⟨h, pc, hcode, rfl⟩
    · exact absurd hcrash (step_ne_crash hx)
    · obtain ⟨hservice, ⟨hnone, -⟩ | ⟨y, hy, haccepted⟩⟩ := step_sessions hcode
      · cases hx.symm.trans hnone
      · cases hx.symm.trans hy
        simp only [after, haccepted, hservice, update_self, true_and]
  | complete | addSession | releaseSession | forget => cases hx

/-- The server keeps its accepted sessions exactly in the runs in which the application
itself has called `AddSession` for each of them before its `ProcessAccept` ends. -/
theorem accepted_kept_iff {as : List (Act W E S)} {s : Server W E S}
    (hrun : (machine W E S main maxSessionCount).Run Machine.Any as s) :
    ((machine W E S main maxSessionCount).Always as fun _ s => Kept s) ↔
      (machine W E S main maxSessionCount).Each as fun before s a =>
        ∀ x, a.accepts s = some x → added before x = true := by
  refine hrun.always_iff_each ?_ fun as s a s' hrun hkept hstep => ?_
  · exact fun x hx => nomatch hx
  constructor
  · intro hkept' x hx
    obtain ⟨haccepted, hsessions⟩ := Server.accepts_step hstep hx
    rw [← mem_sessions_iff hrun, ← hsessions]
    exact (hkept' x haccepted).1
  · intro hadded x hx
    have hmem : x ∈ s'.shared.service.sessions := by
      rcases Server.accepted_step hstep hx with ⟨hx, hsessions⟩ | ⟨hx, hstay⟩
      · rw [hsessions, mem_sessions_iff hrun]
        exact hadded x hx
      · exact hstay (hkept x hx).1
    exact ⟨hmem, Server.not_destroyed hmem⟩

/-- A listener with one event accepts the session `x`; the factory keeps a reference to it
or not. -/
def accepting (x y : S) (keep : Bool) (calls : List (Act Bool Unit S)) : List (Act Bool Unit S) :=
  let started : List (Act Bool Unit S) :=
    [.run false (.event ()), .run false .silent, .run false .silent,
      .run false (.session x true keep), .run false .silent, .run false .silent,
      .run false (.acceptEx false errorIoPending), .run false .silent, .run false .silent,
      .run false .silent]
  let accepted : List (Act Bool Unit S) :=
    [.complete () x 0 0, .run true (.packet () x none), .run true .silent, .run true .silent,
      .run true (.succeeds true), .run true (.peer (some ⟨0, 0⟩)), .run true .silent,
      .run true (.session y true false), .run true .silent, .run true .silent,
      .run true (.acceptEx false errorIoPending), .run true .silent, .run true .silent]
  List.replicate 6 (Act.run false (.succeeds true)) ++ started ++ calls ++ accepted

/-- The application adds the session itself. -/
theorem accepted_kept_iff_added : ∃ s : Server Bool Unit (Fin 2),
    (machine Bool Unit (Fin 2) false 1).exec (machine Bool Unit (Fin 2) false 1).start
        (accepting 0 1 true [.addSession 0]) = some s ∧
      s.shared.accepted 0 = true ∧
      (machine Bool Unit (Fin 2) false 1).Always (accepting 0 1 true [.addSession 0])
        fun _ s => Kept s := by
  have hexec : (((machine Bool Unit (Fin 2) false 1).exec (machine Bool Unit (Fin 2) false 1).start
      (accepting 0 1 true [.addSession 0])).any fun s => s.shared.accepted 0) = true := by
    decide
  obtain ⟨s, hs, haccepted⟩ := (Option.any_eq_true ..).mp hexec
  refine ⟨s, hs, haccepted, (accepted_kept_iff (Machine.run_of_exec hs)).mpr ?_⟩
  exact Machine.each_of_check (by decide)

/-- With the repository's factory an accepted session is in nobody's set, and is destroyed
when its `ProcessAccept` ends. -/
theorem accepted_session_destroyed : ∃ s : Server Bool Unit (Fin 2),
    (machine Bool Unit (Fin 2) false 1).Run Machine.Any (accepting 0 1 false []) s ∧
      s.shared.accepted 0 = true ∧ 0 ∉ s.shared.service.sessions ∧ s.Destroyed 0 := by
  have hexec : (((machine Bool Unit (Fin 2) false 1).exec (machine Bool Unit (Fin 2) false 1).start
      (accepting 0 1 false [])).any fun s => s.shared.accepted 0 = true ∧
        0 ∉ s.shared.service.sessions ∧ s.Destroyed 0) = true := by
    decide
  obtain ⟨s, hs, hprop⟩ := (Option.any_eq_true ..).mp hexec
  exact ⟨s, Machine.run_of_exec hs, of_decide_eq_true hprop⟩

end CppServer.Listener
