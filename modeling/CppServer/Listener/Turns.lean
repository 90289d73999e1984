import CppServer.Listener.Events

namespace CppServer.Listener

open Function Base

/-- What the system answers to one attempt of `RegisterAccept`: whether the port registers the
new session, and the result and error code of `AcceptEx`. -/
structure Attempt where
  registered : Bool
  ok : Bool
  errorCode : ℕ
deriving DecidableEq, Repr

/-- What the system answers during one call: to the attempts of `RegisterAccept` in turn, and to
the two checks of `ProcessAccept`. -/
structure Answers where
  attempt : ℕ → Attempt
  update : Bool
  peer : Option SockAddress

/-- `AcceptEx` succeeds, or its operation is pending. -/
def Attempt.Arms (attempt : Attempt) : Prop :=
  attempt.ok = true ∨ attempt.errorCode = errorIoPending

/-- From the attempt `n` on, one arms the event, and up to it all sessions are registered. -/
def Answers.Settles (answers : Answers) (n : ℕ) : Prop :=
  ∃ m, n ≤ m ∧ (answers.attempt m).Arms ∧
    ∀ i, n ≤ i → i ≤ m → (answers.attempt i).registered = true

theorem Answers.settles_iff {answers : Answers} {n : ℕ} :
    answers.Settles n ↔ (answers.attempt n).registered = true ∧
      ((answers.attempt n).Arms ∨ answers.Settles (n + 1)) := by
  constructor
  · rintro ⟨m, hle, harms, hregistered⟩
    refine ⟨hregistered n le_rfl hle, ?_⟩
    by_cases hm : m = n
    · exact .inl (hm ▸ harms)
    · exact .inr ⟨m, by omega, harms, fun i hi => hregistered i (by omega)⟩
  · rintro ⟨hregistered, harms | ⟨m, hle, harms, hall⟩⟩
    · refine ⟨n, le_rfl, harms, fun i hi hin => ?_⟩
      rw [Nat.le_antisymm hin hi]
      exact hregistered
    · refine ⟨m, by omega, harms, fun i hi him => ?_⟩
      by_cases hn : i = n
      · rw [hn]
        exact hregistered
      · exact hall i (by omega) him

variable {W E S : Type}

/-- The outcome of the step at a place after `n` attempts. The factory makes the session `x`. -/
def Answers.outcome (answers : Answers) (n : ℕ) (x : S) (keep : Bool) : Pc E S → Outcome E S
  | .createSession _ _ _ => .session x (answers.attempt n).registered keep
  | .acceptEx _ _ _ _ => .acceptEx (answers.attempt n).ok (answers.attempt n).errorCode
  | .setUpdateAcceptSocket _ _ => .succeeds answers.update
  | .getpeername _ _ => .peer answers.peer
  | _ => .silent

/-- The number of attempts after a step. -/
def Pc.attempts (n : ℕ) : Pc E S → ℕ
  | .acceptEx _ _ _ _ => n + 1
  | _ => n

/-- Whether a thread is in a call of `Dispatch`, `ProcessAccept` or `RegisterAccept`. -/
def Pc.calling : Pc E S → Bool
  | .createSession _ _ _ | .init _ _ _ _ | .setSession _ _ _ _ | .acceptEx _ _ _ _
  | .unwind _ _ | .dispatch _ | .processAccept _ | .setUpdateAcceptSocket _ _
  | .getpeername _ _ | .setNetAddress _ _ _ => true
  | .idle | .setup _ | .loop _ | .setOwner _ _ | .pushBack _ _ => false

/-- Whether the outermost call has returned, to the loop over `Dispatch` or to that of
`StartAccept`. -/
def Pc.returned : Pc E S → Prop
  | .idle | .loop _ => True
  | _ => False

/-- The way of a call from one place to the next, in the attempt `n`. -/
inductive Turn (answers : Answers) (n : ℕ) : Pc E S → Pc E S → Prop
  | dispatch (e : E) : Turn answers n (.dispatch e) (.processAccept e)
  | processAccept (e : E) (x : S) :
      Turn answers n (.processAccept e) (.setUpdateAcceptSocket e x)
  | updated (e : E) (x : S) : Turn answers n (.setUpdateAcceptSocket e x) (.getpeername e x)
  | notUpdated (e : E) (x : S) :
      Turn answers n (.setUpdateAcceptSocket e x) (.createSession e [] (.processAccept x false))
  | peer (e : E) (x : S) (sockAddress : SockAddress) :
      Turn answers n (.getpeername e x) (.setNetAddress e x sockAddress)
  | noPeer (e : E) (x : S) :
      Turn answers n (.getpeername e x) (.createSession e [] (.processAccept x false))
  | connected (e : E) (x : S) (sockAddress : SockAddress) :
      Turn answers n (.setNetAddress e x sockAddress)
        (.createSession e [] (.processAccept x true))
  | createSession (e : E) (x : S) (locals : List S) (caller : Caller S) :
      Turn answers n (.createSession e locals caller)
        (.init e (Service.createSession x (answers.attempt n).registered) locals caller)
  | init (e : E) (session : Option S) (locals : List S) (caller : Caller S) :
      Turn answers n (.init e session locals caller) (.setSession e session locals caller)
  | setSession (e : E) (session : Option S) (locals : List S) (caller : Caller S) :
      Turn answers n (.setSession e session locals caller) (.acceptEx e session locals caller)
  | retry (e : E) (x : S) (locals : List S) (caller : Caller S)
      (hfails : ¬ (answers.attempt n).Arms) :
      Turn answers n (.acceptEx e (some x) locals caller) (.createSession e (x :: locals) caller)
  | arm (e : E) (x : S) (locals : List S) (caller : Caller S) (harms : (answers.attempt n).Arms) :
      Turn answers n (.acceptEx e (some x) locals caller) (.unwind (x :: locals) caller)
  | unwind (x : S) (locals : List S) (caller : Caller S) :
      Turn answers n (.unwind (x :: locals) caller) (.unwind locals caller)
  | resume (caller : Caller S) : Turn answers n (.unwind [] caller) caller.resume

section

variable [DecidableEq E] [DecidableEq S] {answers : Answers} {n : ℕ} {h h' : Shared E S}
  {pc pc' : Pc E S} {x : S} {keep : Bool}

theorem turn_of_step (hcalling : pc.calling = true)
    (hready : ∀ e, pc = .dispatch e → (h.event e).Ready)
    (hstep : step h pc (answers.outcome n x keep pc) = some (.step h' pc')) :
    Turn answers n pc pc' := by
  cases pc with
  | createSession e locals caller =>
    simp only [Answers.outcome, step] at hstep
    split at hstep <;> cases hstep
    exact .createSession e x locals caller
  | init e session locals caller =>
    cases hstep
    exact .init e session locals caller
  | setSession e session locals caller =>
    cases hstep
    exact .setSession e session locals caller
  | acceptEx e session locals caller =>
    cases session with
    | none => cases hstep
    | some x =>
      simp only [Answers.outcome, step] at hstep
      split at hstep
      case isTrue hfails =>
        cases hstep
        refine .retry e x locals caller fun harms => ?_
        rcases harms with hok | hpending
        · exact Bool.eq_false_iff.mp hfails.1 hok
        · exact hfails.2 hpending
      case isFalse harms =>
        cases hstep
        rw [not_and_or, Bool.not_eq_false, not_not] at harms
        exact .arm e x locals caller harms
  | unwind locals caller =>
    cases locals with
    | nil =>
      cases hstep
      exact .resume caller
    | cons x locals =>
      cases hstep
      exact .unwind x locals caller
  | dispatch e =>
    have howner := (hready e rfl).2
    simp only [Answers.outcome, step, howner] at hstep
    split at hstep <;> cases hstep
    exact .dispatch e
  | processAccept e =>
    simp only [Answers.outcome, step] at hstep
    split at hstep <;> cases hstep
    exact .processAccept e _
  | setUpdateAcceptSocket e x =>
    simp only [Answers.outcome, step] at hstep
    split at hstep <;> cases hstep
    · exact .updated e x
    · exact .notUpdated e x
  | getpeername e x =>
    simp only [Answers.outcome, step] at hstep
    split at hstep <;> cases hstep
    · exact .noPeer e x
    · exact .peer e x _
  | setNetAddress e x sockAddress =>
    cases hstep
    exact .connected e x sockAddress
  | idle | setup | loop | setOwner | pushBack => cases hcalling

/-- The call goes wrong at a null session only. -/
theorem crash_of_step (hcalling : pc.calling = true)
    (hready : ∀ e, pc = .dispatch e → (h.event e).Ready)
    (hsession : ∀ e, pc = .processAccept e → ∃ x, (h.event e).session = some x)
    (hstep : step h pc (answers.outcome n x keep pc) = some .crash) :
    ∃ e locals caller, pc = .acceptEx e none locals caller := by
  cases pc with
  | acceptEx e session locals caller =>
    cases session with
    | none => exact ⟨e, locals, caller, rfl⟩
    | some x =>
      simp only [Answers.outcome, step] at hstep
      split at hstep <;> cases hstep
  | dispatch e =>
    obtain ⟨htype, howner⟩ := hready e rfl
    simp only [Answers.outcome, step, howner, if_pos htype] at hstep
    cases hstep
  | processAccept e =>
    obtain ⟨x, hx⟩ := hsession e rfl
    simp only [Answers.outcome, step, hx] at hstep
    cases hstep
  | createSession | setUpdateAcceptSocket | getpeername =>
    simp only [Answers.outcome, step] at hstep
    split at hstep <;> cases hstep
  | unwind locals caller => cases locals <;> cases hstep
  | init | setSession | setNetAddress => cases hstep
  | idle | setup | loop | setOwner | pushBack => cases hcalling

/-- A thread in a call can take its next step, whatever the system answers. -/
theorem exists_step (answers : Answers) (n : ℕ) (keep : Bool) (hcalling : pc.calling = true)
    (hfresh : h.created x = false) :
    ∃ next, step h pc (answers.outcome n x keep pc) = some next := by
  cases pc with
  | createSession e locals caller => exact ⟨_, if_pos hfresh⟩
  | acceptEx e session locals caller =>
    cases session with
    | none => exact ⟨_, rfl⟩
    | some x =>
      simp only [Answers.outcome, step]
      split <;> exact ⟨_, rfl⟩
  | unwind locals caller => cases locals <;> exact ⟨_, rfl⟩
  | dispatch e =>
    simp only [Answers.outcome, step]
    split
    case h_3 => split <;> exact ⟨_, rfl⟩
    all_goals exact ⟨_, rfl⟩
  | processAccept | setUpdateAcceptSocket | getpeername =>
    simp only [Answers.outcome, step]
    split <;> exact ⟨_, rfl⟩
  | init | setSession | setNetAddress => exact ⟨_, rfl⟩
  | idle | setup | loop | setOwner | pushBack => cases hcalling

end

/-- Where a call stands that arms its event in the attempt `m` at the latest. -/
def Pc.Fine (m n : ℕ) : Pc E S → Prop
  | .createSession _ _ _ | .dispatch _ | .processAccept _ | .setUpdateAcceptSocket _ _
  | .getpeername _ _ | .setNetAddress _ _ _ => n ≤ m
  | .init _ session _ _ | .setSession _ session _ _ | .acceptEx _ session _ _ =>
    n ≤ m ∧ session ≠ none
  | .unwind _ _ | .idle | .loop _ => True
  | .setup _ | .setOwner _ _ | .pushBack _ _ => False

/-- How many steps such a call takes at most. -/
def Pc.rank (m n : ℕ) : Pc E S → ℕ
  | .dispatch _ => 6 * (m - n) + 11
  | .processAccept _ => 6 * (m - n) + 10
  | .setUpdateAcceptSocket _ _ => 6 * (m - n) + 9
  | .getpeername _ _ => 6 * (m - n) + 8
  | .setNetAddress _ _ _ => 6 * (m - n) + 7
  | .createSession _ locals _ => 6 * (m - n) + locals.length + 6
  | .init _ _ locals _ => 6 * (m - n) + locals.length + 5
  | .setSession _ _ locals _ => 6 * (m - n) + locals.length + 4
  | .acceptEx _ _ locals _ => 6 * (m - n) + locals.length + 3
  | .unwind locals _ => locals.length + 1
  | .idle | .setup _ | .loop _ | .setOwner _ _ | .pushBack _ _ => 0

/-- Where a call stands that never returns. -/
def Pc.Doomed (answers : Answers) (n : ℕ) : Pc E S → Prop
  | .createSession _ _ _ | .dispatch _ | .processAccept _ | .setUpdateAcceptSocket _ _
  | .getpeername _ _ | .setNetAddress _ _ _ => ¬ answers.Settles n
  | .init _ session _ _ | .setSession _ session _ _ | .acceptEx _ session _ _ =>
    session = none ∨ (¬ (answers.attempt n).Arms ∧ ¬ answers.Settles (n + 1))
  | .unwind _ _ | .idle | .setup _ | .loop _ | .setOwner _ _ | .pushBack _ _ => False

section

variable {answers : Answers} {m n : ℕ} {pc pc' : Pc E S}

theorem Pc.Fine.calling (hfine : pc.Fine m n) (hreturned : ¬ pc.returned) : pc.calling = true := by
  cases pc with
  | idle | loop => exact absurd trivial hreturned
  | setup | setOwner | pushBack => exact absurd hfine id
  | _ => rfl

theorem Pc.Doomed.calling (hdoomed : pc.Doomed answers n) :
    pc.calling = true ∧ ¬ pc.returned := by
  cases pc with
  | unwind | idle | setup | loop | setOwner | pushBack => exact absurd hdoomed id
  | _ => exact ⟨rfl, id⟩

theorem Caller.resume_returned (caller : Caller S) :
    (caller.resume : Pc E S).Fine m n ∧ (caller.resume : Pc E S).rank m n = 0 := by
  cases caller <;> exact ⟨trivial, rfl⟩

/-- A step of a call that arms its event in time brings it nearer to its return. -/
theorem Turn.fine (hturn : Turn answers n pc pc') (harms : (answers.attempt m).Arms)
    (hregistered : ∀ i, i ≤ m → (answers.attempt i).registered = true) (hfine : pc.Fine m n) :
    pc'.Fine m (pc.attempts n) ∧ pc'.rank m (pc.attempts n) < pc.rank m n := by
  cases hturn with
  | dispatch | processAccept | updated | notUpdated | peer | noPeer | connected =>
    exact ⟨hfine, by simp [Pc.rank, Pc.attempts]⟩
  | createSession e x locals caller =>
    refine ⟨⟨hfine, ?_⟩, by simp [Pc.rank, Pc.attempts]⟩
    rw [hregistered n hfine]
    exact Option.some_ne_none x
  | init | setSession => exact ⟨hfine, by simp [Pc.rank, Pc.attempts]⟩
  | retry e x locals caller hfails =>
    have hne : n ≠ m := by
      rintro rfl
      exact hfails harms
    have hle : n ≤ m := hfine.1
    refine ⟨?_, ?_⟩
    · simp only [Pc.Fine, Pc.attempts]
      omega
    · simp only [Pc.rank, Pc.attempts, List.length_cons]
      omega
  | arm e x locals caller =>
    refine ⟨trivial, ?_⟩
    simp only [Pc.rank, List.length_cons]
    omega
  | unwind x locals caller => exact ⟨trivial, by simp [Pc.rank]⟩
  | resume caller =>
    obtain ⟨hfine', hrank⟩ := caller.resume_returned (E := E) (m := m) (n := n)
    exact ⟨hfine', hrank.trans_lt (Nat.succ_pos _)⟩

/-- A doomed call stays so. -/
theorem Turn.doomed (hturn : Turn answers n pc pc') (hdoomed : pc.Doomed answers n) :
    pc'.Doomed answers (pc.attempts n) := by
  cases hturn with
  | dispatch | processAccept | updated | notUpdated | peer | noPeer | connected => exact hdoomed
  | createSession e x locals caller =>
    simp only [Pc.Doomed, Pc.attempts, Service.createSession]
    cases hregistered : (answers.attempt n).registered with
    | false => exact .inl rfl
    | true =>
      have hnot := mt Answers.settles_iff.mpr hdoomed
      rw [hregistered, not_and, not_or] at hnot
      exact .inr (hnot rfl)
  | init | setSession => exact hdoomed
  | retry e x locals caller =>
    rcases hdoomed with hnone | ⟨-, hnot⟩
    · cases hnone
    · exact hnot
  | arm e x locals caller harms =>
    rcases hdoomed with hnone | ⟨hnot, -⟩
    · cases hnone
    · exact absurd harms hnot
  | unwind | resume => exact absurd hdoomed id

end

end CppServer.Listener
