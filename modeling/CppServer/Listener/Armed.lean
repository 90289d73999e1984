import CppServer.Listener.Invariant

namespace CppServer.Listener

open Function Base

variable {W E S : Type}

/-- The event that a step writes, by `Init` or to its member `session`. -/
def Act.writes (s : Server W E S) : Act W E S → Option E
  | .run w _ => (s.pc w).writes
  | _ => none

theorem Pc.hand_of_writes {pc : Pc E S} {e : E} (h : pc.writes = some e) : pc.hand = some e := by
  cases pc <;> first | exact h | cases h

theorem Effect.event_eq {h h' : Shared E S} {pc pc' : Pc E S} (heffect : Effect h pc h' pc') {e : E}
    (hhand : pc.hand ≠ some e) (hlisted : e ∈ h.acceptEvents) : h'.event e = h.event e := by
  cases heffect with
  | keep _ _ _ _ _ hrest => exact hrest e hhand
  | arm _ _ _ _ _ _ _ _ hrest => exact hrest e hhand
  | take _ _ _ _ _ _ hevent => rw [hevent]
  | create _ _ _ hnew _ _ hrest =>
    apply hrest
    rintro rfl
    exact hnew hlisted
  | list _ _ _ _ _ _ hevent => rw [hevent]

/-- An outstanding event is listed, and in nobody's hands. -/
theorem Inv.outstanding_apart {main : W} {s : Server W E S} (hinv : Inv main s) {e : E}
    (he : e ∈ s.shared.outstanding) :
    e ∈ s.shared.acceptEvents ∧ ∀ w, (s.pc w).hand ≠ some e := by
  have hapart (w : W) (hw : (s.pc w).hand = some e) : False := hinv.custody.apart w e hw he
  rcases hinv.listed e (.inl he) with hmem | ⟨w, hw⟩
  · exact ⟨hmem, hapart⟩
  · exact absurd (Pc.hand_of_unlisted hw) (hapart w)

/-- How many events `StartAccept` has listed, and how many it will list at least. -/
def Caller.progress : Caller S → Option (ℕ × ℕ)
  | .startAccept i => some (i + 1, i + 1)
  | .processAccept _ _ => none

def Pc.progress : Pc E S → Option (ℕ × ℕ)
  | .setup _ => some (0, 0)
  | .loop i => some (i, i)
  | .setOwner _ i | .pushBack _ i => some (i, i + 1)
  | .createSession _ _ caller | .init _ _ _ caller | .setSession _ _ _ caller
  | .acceptEx _ _ _ caller | .unwind _ caller => caller.progress
  | .idle | .dispatch _ | .processAccept _ | .setUpdateAcceptSocket _ _ | .getpeername _ _
  | .setNetAddress _ _ _ => none

theorem Caller.progress_isSome (caller : Caller S) : caller.progress.isSome = caller.starting := by
  cases caller <;> rfl

theorem Pc.progress_isSome (pc : Pc E S) : pc.progress.isSome = pc.starting := by
  cases pc <;> first | rfl | exact Caller.progress_isSome _

variable {maxSessionCount : ℤ}

/-- `StartAccept` has listed as many events as it has counted, and in the end as many
as `GetMaxSessionCount` says. -/
structure Started (maxSessionCount : ℤ) (h : Shared E S) (pc : Pc E S) : Prop where
  limit : h.service.maxSessionCount = maxSessionCount
  progress : ∀ n k, pc.progress = some (n, k) →
    h.acceptEvents.length = n ∧ k ≤ maxSessionCount.toNat ∧ h.returned = none
  finished : h.returned = some true → h.acceptEvents.length = maxSessionCount.toNat

theorem Started.congr {h h' : Shared E S} {pc pc' : Pc E S} (hstarted : Started maxSessionCount h pc)
    (hprogress : pc'.progress = pc.progress) (hlisted : h'.acceptEvents = h.acceptEvents)
    (hreturned : h'.returned = h.returned)
    (hlimit : h'.service.maxSessionCount = h.service.maxSessionCount) :
    Started maxSessionCount h' pc' := by
  refine ⟨hlimit.trans hstarted.limit, fun n k hn => ?_, fun hn => ?_⟩
  · rw [hlisted, hreturned]
    exact hstarted.progress n k (hprogress ▸ hn)
  · rw [hlisted]
    exact hstarted.finished (hreturned ▸ hn)

/-- The thread is still in `StartAccept` after the step. -/
theorem Started.of_progress {h : Shared E S} {pc : Pc E S} {n k : ℕ}
    (hlimit : h.service.maxSessionCount = maxSessionCount)
    (hprogress : pc.progress = some (n, k)) (hlength : h.acceptEvents.length = n)
    (hle : k ≤ maxSessionCount.toNat) (hreturned : h.returned = none) :
    Started maxSessionCount h pc := by
  refine ⟨hlimit, fun n' k' hn => ?_, fun hn => ?_⟩
  · rw [hprogress] at hn
    cases hn
    exact ⟨hlength, hle, hreturned⟩
  · rw [hreturned] at hn
    cases hn

/-- Once `StartAccept` has returned, no thread is inside. -/
theorem not_starting {main : W} {s : Server W E S} (hinv : Inv main s)
    (hstarted : Started maxSessionCount s.shared (s.pc main))
    {ok : Bool} (hreturned : s.shared.returned = some ok) (w : W) : (s.pc w).starting = false := by
  by_contra hin
  have hin : (s.pc w).starting = true := by simpa using hin
  have hmain := hinv.starter w hin
  subst hmain
  obtain ⟨⟨n, k⟩, hprogress⟩ := Option.isSome_iff_exists.mp ((s.pc w).progress_isSome.trans hin)
  have hnone := (hstarted.progress n k hprogress).2.2
  rw [hreturned] at hnone
  cases hnone

variable [DecidableEq E] [DecidableEq S]

theorem Started.after {h h' : Shared E S} {pc pc' : Pc E S} {outcome : Outcome E S}
    (hstarted : Started maxSessionCount h pc)
    (hstep : Listener.step h pc outcome = some (.step h' pc')) : Started maxSessionCount h' pc' := by
  unfold Listener.step at hstep
  split at hstep
  case h_1 stage ok =>
    obtain ⟨hlength, -, hreturned⟩ := hstarted.progress 0 0 rfl
    split at hstep
    case h_1 =>
      cases hstep
      exact ⟨hstarted.limit, nofun, nofun⟩
    case h_2 =>
      cases hstep
      exact hstarted.congr rfl rfl rfl rfl
    case h_3 =>
      cases hstep
      exact .of_progress hstarted.limit rfl hlength (Nat.zero_le _) hreturned
  case h_2 i e =>
    obtain ⟨hlength, -, hreturned⟩ := hstarted.progress i i rfl
    split at hstep
    case isTrue hlt =>
      cases hstep
      have hlt := hstarted.limit ▸ hlt.1
      exact .of_progress hstarted.limit rfl hlength (by omega) hreturned
    case isFalse => cases hstep
  case h_3 i =>
    obtain ⟨hlength, hle, -⟩ := hstarted.progress i i rfl
    split at hstep
    case isTrue => cases hstep
    case isFalse hge =>
      cases hstep
      rw [hstarted.limit] at hge
      exact ⟨hstarted.limit, nofun, fun _ => by simp only; omega⟩
  case h_5 e i =>
    obtain ⟨hlength, hle, hreturned⟩ := hstarted.progress i (i + 1) rfl
    cases hstep
    refine .of_progress hstarted.limit rfl ?_ hle hreturned
    rw [List.length_append, hlength, List.length_singleton]
  case h_11 caller =>
    cases hstep
    cases caller with
    | startAccept => exact hstarted.congr rfl rfl rfl rfl
    | processAccept => exact hstarted.congr rfl rfl rfl rfl
  all_goals
    repeat' split at hstep
    all_goals first | (cases hstep; done) | (cases hstep; exact hstarted.congr rfl rfl rfl rfl)

/-- A thread outside `StartAccept` leaves its work alone. -/
theorem step_outside {h h' : Shared E S} {pc pc' : Pc E S} {outcome : Outcome E S}
    (hout : pc.starting = false) (hstep : step h pc outcome = some (.step h' pc')) :
    h'.acceptEvents = h.acceptEvents ∧ h'.returned = h.returned ∧ h'.service = h.service := by
  unfold step at hstep
  split at hstep
  all_goals
    repeat' split at hstep
    all_goals first | (cases hstep; done) | (cases hout; done) | (cases hstep; exact ⟨rfl, rfl, rfl⟩)

section

variable [DecidableEq W] {main : W} {s s' : Server W E S} {a : Act W E S}

/-- No step writes an event while it is outstanding. -/
theorem Inv.not_written (hinv : Inv main s) (hstep : s.step a = some s') {e : E}
    (he : e ∈ s.shared.outstanding) :
    a.writes s ≠ some e ∧ (s'.shared.event e).session = (s.shared.event e).session := by
  obtain ⟨hlisted, hapart⟩ := hinv.outstanding_apart he
  cases a with
  | run w outcome =>
    refine ⟨fun hw => hapart w (Pc.hand_of_writes hw), ?_⟩
    rcases Server.step_run hstep with ⟨-, rfl⟩ | ⟨h, pc, hcode, rfl⟩
    · rfl
    · have heffect := step_effect (fun e => hinv.hand_ready) (hinv.suits w) hcode
      exact congrArg AcceptEvent.session (heffect.event_eq (hapart w) hlisted)
  | complete e' x status bytes =>
    obtain ⟨-, rfl⟩ := Server.step_complete hstep
    refine ⟨(Option.some_ne_none e).symm, ?_⟩
    by_cases he' : e = e'
    · subst he'
      simp only [Server.complete, update_self]
    · simp only [Server.complete, update_of_ne he']
  | addSession | releaseSession | forget =>
    exact ⟨(Option.some_ne_none e).symm, by rw [(Server.step_external rfl hstep).event]⟩

/-- The thread that called `StartAccept` follows its loop; every other thread is
outside. -/
theorem started_step (hinv : Inv main s) (hstarted : Started maxSessionCount s.shared (s.pc main))
    (hstep : s.step a = some s') : Started maxSessionCount s'.shared (s'.pc main) := by
  have hexternal (ha : a.external = true) : Started maxSessionCount s'.shared (s'.pc main) := by
    have hsame := Server.step_external ha hstep
    refine hstarted.congr ?_ hsame.acceptEvents hsame.returned hsame.maxSessionCount
    rw [hsame.pc]
  cases a with
  | run w outcome =>
    rcases Server.step_run hstep with ⟨-, rfl⟩ | ⟨h, pc, hcode, rfl⟩
    · exact hstarted
    · by_cases hw : w = main
      · subst hw
        simp only [Server.after, update_self]
        exact hstarted.after hcode
      · have hout : (s.pc w).starting = false := by
          by_contra hin
          exact hw (hinv.starter w (by simpa using hin))
        obtain ⟨hlisted, hreturned, hservice⟩ := step_outside hout hcode
        simp only [Server.after, update_of_ne (Ne.symm hw)]
        exact hstarted.congr rfl hlisted hreturned (hservice ▸ rfl)
  | complete e x status bytes =>
    obtain ⟨-, rfl⟩ := Server.step_complete hstep
    exact hstarted.congr rfl rfl rfl rfl
  | addSession | releaseSession | forget => exact hexternal rfl

theorem started_run {as : List (Act W E S)}
    (hrun : (machine W E S main maxSessionCount).Run Machine.Any as s) :
    Started maxSessionCount s.shared (s.pc main) := by
  induction hrun with
  | start =>
    have hmain : (machine W E S main maxSessionCount).start.pc main = .setup .createSocket := by
      simp only [machine, update_self]
    rw [hmain]
    exact .of_progress rfl rfl rfl (Nat.zero_le _) rfl
  | snoc hrun _ hstep ih => exact started_step (inv_run hrun) ih hstep

/-- In every state each listed event is outstanding once and in nobody's hands, or not
outstanding and in the hands of exactly one thread; no step writes an outstanding event,
which owns the session whose socket and buffer the system has. Once `StartAccept` has
returned true, there are as many events as sessions allowed, and the threads are all in
the loop over `Dispatch`. -/
theorem accept_events_armed_once (maxSessionCount : ℤ) {as : List (Act W E S)}
    (hrun : (machine W E S main maxSessionCount).Run Machine.Any as s) :
    (∀ e ∈ s.shared.acceptEvents,
      (s.shared.outstanding.count e = 1 ∧ ∀ w, s.hand w ≠ some e) ∨
        (s.shared.outstanding.count e = 0 ∧ ∃! w, s.hand w = some e)) ∧
    (∀ a s', s.step a = some s' → ∀ e ∈ s.shared.outstanding,
      a.writes s ≠ some e ∧ (s'.shared.event e).session = (s.shared.event e).session) ∧
    (∀ r ∈ s.shared.posted, (s.shared.event r.1).session = some r.2) ∧
    (s.shared.returned = some true →
      s.shared.acceptEvents.length = maxSessionCount.toNat ∧ ∀ w, (s.pc w).starting = false) := by
  have hinv := inv_run hrun
  have hstarted := started_run hrun
  exact ⟨fun e he => hinv.custody.place (hinv.known e he),
    fun a s' hstep e => hinv.not_written hstep, hinv.owned,
    fun hreturned => ⟨hstarted.finished hreturned, not_starting hinv hstarted hreturned⟩⟩

end

/-- One event; its completion is dequeued by another thread before the registering call
has returned, and a first attempt to register it again fails. -/
def rearmed (x y z : S) : List (Act Bool Unit S) :=
  List.replicate 6 (Act.run false (.succeeds true)) ++
    [Act.run false (.event ()), .run false .silent, .run false .silent,
      .run false (.session x true false), .run false .silent, .run false .silent,
      .run false (.acceptEx false errorIoPending), .complete () x 0 0,
      .run true (.packet () x none), .run true .silent, .run true .silent,
      .run true (.succeeds true), .run true (.peer (some ⟨0, 0⟩)), .run true .silent,
      .run true (.session y true false), .run true .silent, .run true .silent,
      .run true (.acceptEx false 10055), .run true (.session z true false), .run true .silent,
      .run true .silent, .run true (.acceptEx false errorIoPending),
      .run false .silent, .run false .silent, .run false .silent]

theorem accept_events_armed_once_rearmed : ∃ s : Server Bool Unit (Fin 3),
    (machine Bool Unit (Fin 3) false 1).exec (machine Bool Unit (Fin 3) false 1).start
        (rearmed 0 1 2) = some s ∧
      s.shared.posted = [((), 2)] ∧ (s.shared.event ()).session = some 2 ∧
      s.shared.acceptEvents.length = 1 := by
  have hexec : (((machine Bool Unit (Fin 3) false 1).exec (machine Bool Unit (Fin 3) false 1).start
      (rearmed 0 1 2)).any fun s =>
        s.shared.posted = [((), 2)] ∧ s.shared.returned = some true) = true := by
    decide
  obtain ⟨s, hs, hprop⟩ := (Option.any_eq_true ..).mp hexec
  obtain ⟨hposted, hreturned⟩ := of_decide_eq_true hprop
  obtain ⟨-, -, howned, hall⟩ := accept_events_armed_once 1 (Machine.run_of_exec hs)
  exact ⟨s, hs, hposted, howned ((), 2) (by rw [hposted]; exact List.mem_singleton.mpr rfl),
    (hall hreturned).1⟩

end CppServer.Listener
