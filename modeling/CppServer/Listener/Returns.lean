import CppServer.Base.Inevitable
import CppServer.Listener.Armed
import CppServer.Listener.Turns

namespace CppServer.Listener

open Function Base

variable {W E S : Type}

/-- The event of a completion that a thread dispatches. -/
def Pc.dispatched : Pc E S → Option E
  | .dispatch e | .processAccept e => some e
  | _ => none

/-- An event that is dispatched still has its session. -/
def Held (s : Server W E S) : Prop :=
  ∀ w e, (s.pc w).dispatched = some e → ∃ x, (s.shared.event e).session = some x

/-- The factory has made finitely many sessions. -/
def Made (s : Server W E S) : Prop :=
  ∃ made : Finset S, ∀ x, s.shared.created x = true → x ∈ made

section

variable {main w : W} {s s' : Server W E S} {h h' : Shared E S} {pc pc' : Pc E S}
  {outcome : Outcome E S}

theorem Pc.hand_of_dispatched {e : E} (hpc : pc.dispatched = some e) :
    pc.hand = some e ∧ pc.unlisted = none := by
  cases pc with
  | dispatch | processAccept => exact ⟨hpc, rfl⟩
  | _ => cases hpc

variable [DecidableEq E] [DecidableEq S]

/-- What comes to be dispatched was dequeued, or is on its way. -/
theorem step_dispatched (hstep : step h pc outcome = some (.step h' pc')) {e : E}
    (hpc : pc'.dispatched = some e) :
    h'.event = h.event ∧ (pc.dispatched = some e ∨ ∃ x, (e, x) ∈ h.queue) := by
  unfold step at hstep
  split at hstep
  case h_11 caller =>
    cases hstep
    cases caller <;> cases hpc
  case h_12 e' x errorCode =>
    split at hstep
    case isTrue hmem =>
      cases hstep
      cases hpc
      exact ⟨rfl, .inr ⟨x, hmem.1⟩⟩
    case isFalse => cases hstep
  case h_14 e' =>
    split at hstep
    case h_1 | h_2 =>
      cases hstep
      first | done | cases hpc
    case h_3 =>
      split at hstep <;> cases hstep
      exact ⟨rfl, .inl hpc⟩
  all_goals
    repeat' split at hstep
    all_goals first | (cases hstep; done) | (cases hstep; cases hpc)

theorem step_created (hstep : step h pc outcome = some (.step h' pc')) :
    h'.created = h.created ∨ ∃ x, h'.created = update h.created x true := by
  unfold step at hstep
  split at hstep
  case h_6 e locals caller x registered keep =>
    split at hstep <;> cases hstep
    exact .inr ⟨x, rfl⟩
  all_goals
    repeat' split at hstep
    all_goals first | (cases hstep; done) | (cases hstep; exact .inl rfl)

/-- What `GetQueuedCompletionStatus` answers: the packet of a completed operation; or a failure,
with its error code, and the packet of the failed operation if it has dequeued one. -/
inductive Dequeued (E S : Type)
  | completed (e : E) (session : S)
  | failed (errorCode : ℕ) (packet : Option (E × S))
deriving DecidableEq

def Dequeued.packet : Dequeued E S → Option (E × S)
  | .completed e x => some (e, x)
  | .failed _ packet => packet

def Dequeued.TimedOut : Dequeued E S → Prop
  | .completed _ _ => False
  | .failed errorCode _ => errorCode = waitTimeout

/-- `IocpCore::Dispatch` up to the member `owner` of the event. -/
def dequeue (h : Shared E S) : Dequeued E S → Next E S
  | .completed e x => .step { h with queue := h.queue.erase (e, x) } (.dispatch e)
  | .failed errorCode packet =>
    let queue := packet.elim h.queue h.queue.erase
    if errorCode = waitTimeout then .step { h with queue } .idle
    else
      match packet with
      | some (e, _) => .step { h with queue } (.dispatch e)
      -- `iocpEvent` is still null
      | none => .crash

/-- The step of a thread in the loop over `Dispatch` is the same, for the answers that it has. -/
theorem dequeue_completed {e : E} {y : S} (hmem : (e, y) ∈ h.queue) :
    step h .idle (.packet e y none) = some (dequeue h (.completed e y)) :=
  if_pos ⟨hmem, (Option.some_ne_none _).symm⟩

theorem dequeue_failed {e : E} {y : S} {errorCode : ℕ} (hmem : (e, y) ∈ h.queue)
    (hcode : errorCode ≠ waitTimeout) :
    step h .idle (.packet e y (some errorCode)) =
      some (dequeue h (.failed errorCode (some (e, y)))) := by
  simp only [dequeue, if_neg hcode]
  exact if_pos ⟨hmem, fun h => hcode (Option.some.inj h)⟩

theorem dequeue_timeout :
    step h .idle .timeout = some (dequeue h (.failed waitTimeout none)) := rfl

variable [DecidableEq W]

theorem held_step {a : Act W E S} (hinv : Inv main s) (hheld : Held s)
    (hstep : s.step a = some s') : Held s' := by
  intro v e hv
  cases a with
  | run w outcome =>
    rcases Server.step_run hstep with ⟨-, rfl⟩ | ⟨h, pc, hcode, rfl⟩
    · exact hheld v e hv
    · by_cases hvw : v = w
      · subst hvw
        simp only [Server.after, update_self] at hv ⊢
        obtain ⟨hevent, hold | ⟨x, hx⟩⟩ := step_dispatched hcode hv
        · rw [hevent]
          exact hheld v e hold
        · rw [hevent]
          exact ⟨x, hinv.owned (e, x) (List.mem_append_right _ hx)⟩
      · simp only [Server.after, update_of_ne hvw] at hv ⊢
        obtain ⟨hhand, hunlisted⟩ := Pc.hand_of_dispatched hv
        have heffect := step_effect (fun e => hinv.hand_ready) (hinv.suits w) hcode
        rw [heffect.event_eq (hinv.hand_ne hvw hhand) (hinv.hand_listed hhand hunlisted)]
        exact hheld v e hv
  | complete e' x status bytes =>
    obtain ⟨-, rfl⟩ := Server.step_complete hstep
    obtain ⟨y, hy⟩ := hheld v e hv
    refine ⟨y, ?_⟩
    by_cases he : e = e'
    · subst he
      simpa only [Server.complete, update_self] using hy
    · simpa only [Server.complete, update_of_ne he] using hy
  | addSession | releaseSession | forget =>
    have hsame := Server.step_external rfl hstep
    rw [hsame.pc] at hv
    rw [hsame.event]
    exact hheld v e hv

theorem made_step {a : Act W E S} (hmade : Made s) (hstep : s.step a = some s') : Made s' := by
  obtain ⟨made, hmade⟩ := hmade
  cases a with
  | run w outcome =>
    rcases Server.step_run hstep with ⟨-, rfl⟩ | ⟨h, pc, hcode, rfl⟩
    · exact ⟨made, hmade⟩
    · simp only [Made, Server.after]
      rcases step_created hcode with hsame | ⟨x, hx⟩
      · rw [hsame]
        exact ⟨made, hmade⟩
      · refine ⟨insert x made, fun y hy => ?_⟩
        by_cases hyx : y = x
        · rw [hyx]
          exact Finset.mem_insert_self ..
        · rw [hx, update_of_ne hyx] at hy
          exact Finset.mem_insert_of_mem (hmade y hy)
  | complete e x status bytes =>
    obtain ⟨-, rfl⟩ := Server.step_complete hstep
    exact ⟨made, hmade⟩
  | addSession x | forget x =>
    simp only [Server.step] at hstep
    split at hstep <;> cases hstep
    exact ⟨made, hmade⟩
  | releaseSession x =>
    simp only [Server.step] at hstep
    split at hstep
    case isTrue => split at hstep <;> cases hstep <;> exact ⟨made, hmade⟩
    case isFalse => cases hstep

/-- What holds in every state of a run. -/
structure Sound (main : W) (s : Server W E S) : Prop where
  inv : Inv main s
  held : Held s
  made : Made s

omit [DecidableEq W] [DecidableEq E] [DecidableEq S] in
theorem Sound.ready (hsound : Sound main s) {e : E} (hpc : s.pc w = .dispatch e) :
    (s.shared.event e).Ready :=
  hsound.inv.hand_ready (congrArg Pc.hand hpc) (congrArg Pc.unlisted hpc)

theorem sound_run {maxSessionCount : ℤ} {as : List (Act W E S)}
    (hrun : (machine W E S main maxSessionCount).Run Machine.Any as s) : Sound main s := by
  apply hrun.invariant (P := Sound main)
  · refine ⟨inv_start maxSessionCount, fun w e hw => ?_, ∅, fun x hx => ?_⟩
    · simp only [machine, update_apply] at hw
      split at hw <;> cases hw
    · exact absurd hx Bool.false_ne_true
  · rintro s a s' ⟨hinv, hheld, hmade⟩ - hstep
    exact ⟨inv_step hinv hstep, held_step hinv hheld hstep, made_step hmade hstep⟩

/-- The labels of other threads, of the system and of the application. -/
def Foreign (w : W) (a : Act W E S) : Prop := ∀ outcome, a ≠ .run w outcome

/-- The next step of a call with these answers after `n` attempts. -/
def Owns (w : W) (answers : Answers) (n : ℕ) (s : Server W E S) (a : Act W E S) (n' : ℕ) : Prop :=
  ∃ x keep, a = .run w (answers.outcome n x keep (s.pc w)) ∧ n' = (s.pc w).attempts n

/-- The call that a thread is in returns, with these answers of the system: the recursion ends,
nothing null is dereferenced, and whatever others do in the meantime, the thread comes back as
long as it takes its steps and they have not crashed. -/
def Returns (main : W) (maxSessionCount : ℤ) (w : W) (answers : Answers) (n : ℕ)
    (s : Server W E S) : Prop :=
  Machine.Inevitable (machine W E S main maxSessionCount) (Foreign w) (fun s => s.crashed = false)
    (Owns w answers) (fun s => (s.pc w).returned) n s

/-- A state of a run in which nothing has crashed. -/
def Working (main : W) (maxSessionCount : ℤ) (s : Server W E S) : Prop :=
  (∃ as, (machine W E S main maxSessionCount).Run Machine.Any as s) ∧ s.crashed = false

variable {maxSessionCount : ℤ} {answers : Answers} {m n : ℕ} {x : S} {keep : Bool}

theorem Working.between (hworking : Working main maxSessionCount s)
    (hbetween : (machine W E S main maxSessionCount).Between (Foreign w)
      (fun s => s.crashed = false) s s') :
    Working main maxSessionCount s' ∧ s'.pc w = s.pc w := by
  obtain ⟨⟨as, hrun⟩, -⟩ := hworking
  refine ⟨⟨hbetween.reachable hrun, hbetween.choose_spec.2.2⟩, ?_⟩
  refine hbetween.keep (P := fun t => t.pc w = s.pc w) (fun t a t' hforeign hpc hstep => ?_) rfl
  rw [← hpc]
  have hstep : t.step a = some t' := hstep
  cases a with
  | run v outcome =>
    rcases Server.step_run hstep with ⟨-, rfl⟩ | ⟨h, pc, hcode, rfl⟩
    · rfl
    · refine update_of_ne (fun hwv => ?_) ..
      subst hwv
      exact hforeign outcome rfl
  | complete e x status bytes =>
    obtain ⟨-, rfl⟩ := Server.step_complete hstep
    rfl
  | addSession | releaseSession | forget =>
    have hsame : t.Unmoved t' := Server.step_external rfl hstep
    rw [hsame.pc]

theorem Working.snoc {a : Act W E S} (hworking : Working main maxSessionCount s)
    (hstep : (machine W E S main maxSessionCount).step s a = some s') (hlive : s'.crashed = false) :
    Working main maxSessionCount s' := by
  obtain ⟨⟨as, hrun⟩, -⟩ := hworking
  exact ⟨⟨as ++ [a], hrun.snoc trivial hstep⟩, hlive⟩

theorem Working.sound (hworking : Working main maxSessionCount s) : Sound main s := by
  obtain ⟨⟨as, hrun⟩, -⟩ := hworking
  exact sound_run hrun

/-- The next step of a call: a turn on its way, or a crash at a null session. -/
theorem Working.turn (hworking : Working main maxSessionCount s)
    (hcalling : (s.pc w).calling = true)
    (hstep : s.step (.run w (answers.outcome n x keep (s.pc w))) = some s') :
    (s'.crashed = true ∧ ∃ e locals caller, s.pc w = .acceptEx e none locals caller) ∨
      (s'.crashed = false ∧ Turn answers n (s.pc w) (s'.pc w)) := by
  have hready (e : E) (hpc : s.pc w = .dispatch e) := hworking.sound.ready hpc
  rcases Server.step_run hstep with ⟨hcode, rfl⟩ | ⟨h, pc, hcode, rfl⟩
  · refine .inl ⟨rfl, crash_of_step hcalling hready (fun e hpc => ?_) hcode⟩
    exact hworking.sound.held w e (congrArg Pc.dispatched hpc)
  · refine .inr ⟨hworking.2, ?_⟩
    simp only [Server.after, update_self]
    exact turn_of_step hcalling hready hcode

theorem Working.enabled [Infinite S] (hworking : Working main maxSessionCount s)
    (hcalling : (s.pc w).calling = true) :
    ∃ a n' t, Owns w answers n s a n' ∧ (machine W E S main maxSessionCount).step s a = some t := by
  obtain ⟨made, hmade⟩ := hworking.sound.made
  obtain ⟨x, hx⟩ := Infinite.exists_notMem_finset made
  have hfresh : s.shared.created x = false :=
    Bool.eq_false_iff.mpr fun hcreated => hx (hmade x hcreated)
  obtain ⟨next, hnext⟩ := exists_step answers n false hcalling hfresh
  have hstep : ∃ t, s.step (.run w (answers.outcome n x false (s.pc w))) = some t := by
    simp only [Server.step, hworking.2, hnext, Bool.false_eq_true, if_false]
    cases next with
    | step => exact ⟨_, rfl⟩
    | crash => exact ⟨_, rfl⟩
  obtain ⟨t, ht⟩ := hstep
  exact ⟨_, _, t, ⟨x, false, rfl, rfl⟩, ht⟩

theorem returns_of_fine [Infinite S] (hworking : Working main maxSessionCount s)
    (harms : (answers.attempt m).Arms)
    (hregistered : ∀ i, i ≤ m → (answers.attempt i).registered = true)
    (hfine : (s.pc w).Fine m n) : Returns main maxSessionCount w answers n s := by
  refine Machine.Inevitable.of_measure
    (I := fun n s => Working main maxSessionCount s ∧ (s.pc w).Fine m n)
    (μ := fun n s => (s.pc w).rank m n) ?_ ?_ ?_ ⟨hworking, hfine⟩
  · rintro n s s' ⟨hworking, hfine⟩ hbetween
    obtain ⟨hworking', hpc⟩ := hworking.between hbetween
    rw [hpc]
    exact ⟨⟨hworking', hfine⟩, rfl, id⟩
  · rintro n s ⟨hworking, hfine⟩ hreturned
    exact hworking.enabled (hfine.calling hreturned)
  · rintro n s a n' t ⟨hworking, hfine⟩ hreturned ⟨x, keep, rfl, rfl⟩ hstep
    rcases hworking.turn (hfine.calling hreturned) hstep with
      ⟨-, e, locals, caller, hpc⟩ | ⟨hlive, hturn⟩
    · rw [hpc] at hfine
      exact absurd rfl hfine.2
    · obtain ⟨hfine', hlt⟩ := hturn.fine harms hregistered hfine
      exact ⟨hlive, ⟨hworking.snoc hstep hlive, hfine'⟩, hlt⟩

theorem not_returns_of_doomed (hworking : Working main maxSessionCount s)
    (hdoomed : (s.pc w).Doomed answers n) : ¬ Returns main maxSessionCount w answers n s := by
  intro hreturns
  refine Machine.Inevitable.not_doomed
    (D := fun n s => Working main maxSessionCount s ∧ (s.pc w).Doomed answers n)
    (fun n s h => h.1.2) (fun n s h => h.2.calling.2) ?_ hreturns ⟨hworking, hdoomed⟩
  rintro n s a n' t ⟨hworking, hdoomed⟩ ⟨x, keep, rfl, rfl⟩ hstep hlive
  refine ⟨hworking.snoc hstep hlive, ?_⟩
  rcases hworking.turn hdoomed.calling.1 hstep with ⟨hcrashed, -⟩ | ⟨-, hturn⟩
  · rw [hlive] at hcrashed
    cases hcrashed
  · exact hturn.doomed hdoomed

/-- The entry of a call: of `RegisterAccept`, of `ProcessAccept`, or of `Dispatch` with an event
in its hands. -/
def Pc.entering : Pc E S → Bool
  | .createSession _ _ _ | .processAccept _ | .dispatch _ => true
  | _ => false

theorem returns_iff [Infinite S] (hworking : Working main maxSessionCount s)
    (hentering : (s.pc w).entering = true) :
    Returns main maxSessionCount w answers 0 s ↔ answers.Settles 0 := by
  constructor
  · intro hreturns
    by_contra hnot
    refine not_returns_of_doomed hworking ?_ hreturns
    cases hpc : s.pc w with
    | createSession | processAccept | dispatch => exact hnot
    | _ =>
      rw [hpc] at hentering
      cases hentering
  · rintro ⟨m, hle, harms, hregistered⟩
    refine returns_of_fine hworking harms (fun i => hregistered i (Nat.zero_le i)) ?_
    cases hpc : s.pc w with
    | createSession | processAccept | dispatch => exact hle
    | _ =>
      rw [hpc] at hentering
      cases hentering

/-- A call of `Dispatch` returns to which `GetQueuedCompletionStatus` gives this answer. -/
def DispatchReturns (main : W) (maxSessionCount : ℤ) (w : W) (answers : Answers)
    (s : Server W E S) (answer : Dequeued E S) : Prop :=
  match dequeue s.shared answer with
  | .step h pc => Returns main maxSessionCount w answers 0 (s.after w h pc)
  | .crash => False

/-- A call of `Dispatch` that has dequeued an event. -/
theorem dispatchReturns_iff_of_step [Infinite S] (answers : Answers)
    (hworking : Working main maxSessionCount s)
    (hidle : s.pc w = .idle) {outcome : Outcome E S} {e : E}
    (hcode : step s.shared .idle outcome = some (.step h (.dispatch e))) :
    Returns main maxSessionCount w answers 0 (s.after w h (.dispatch e)) ↔ answers.Settles 0 := by
  have hstep : (machine W E S main maxSessionCount).step s (.run w outcome) =
      some (s.after w h (.dispatch e)) := by
    simp only [machine, Server.step, hworking.2, hidle, hcode, Bool.false_eq_true, if_false]
  refine returns_iff (hworking.snoc hstep hworking.2) ?_
  simp only [Server.after, update_self]
  rfl

theorem dispatchReturns_iff [Infinite S] (hworking : Working main maxSessionCount s)
    (hidle : s.pc w = .idle) {answer : Dequeued E S}
    (hqueue : ∀ packet, answer.packet = some packet → packet ∈ s.shared.queue) :
    DispatchReturns main maxSessionCount w answers s answer ↔
      answer.TimedOut ∨ (answer.packet ≠ none ∧ answers.Settles 0) := by
  cases answer with
  | completed e x =>
    have hreturns := dispatchReturns_iff_of_step answers hworking hidle
      (dequeue_completed (hqueue _ rfl))
    simpa [DispatchReturns, dequeue, Dequeued.TimedOut, Dequeued.packet] using hreturns
  | failed errorCode packet =>
    by_cases hcode : errorCode = waitTimeout
    · refine iff_of_true ?_ (.inl hcode)
      simp only [DispatchReturns, dequeue, if_pos hcode]
      refine .done ?_
      simp only [Server.after, update_self]
      trivial
    · cases packet with
      | none =>
        refine iff_of_false ?_ ?_
        · simp only [DispatchReturns, dequeue, if_neg hcode]
          exact id
        · rintro (htimed | ⟨hpacket, -⟩)
          · exact hcode htimed
          · exact hpacket rfl
      | some packet =>
        obtain ⟨e, x⟩ := packet
        have hfailed := dequeue_failed (hqueue (e, x) rfl) hcode
        simp only [dequeue, if_neg hcode] at hfailed
        have hreturns := dispatchReturns_iff_of_step answers hworking hidle hfailed
        simpa [DispatchReturns, dequeue, Dequeued.TimedOut, Dequeued.packet, hcode] using hreturns

/-- When a call returns. A call of `RegisterAccept` or `ProcessAccept` does exactly if one of its
attempts arms the event and the port has registered the session of each attempt up to it. A call
of `Dispatch` does exactly if it timed out, or has dequeued an event and the same holds of the
attempts that follow. -/
theorem calls_return_iff [Infinite S] {as : List (Act W E S)}
    (hrun : (machine W E S main maxSessionCount).Run Machine.Any as s)
    (hlive : s.crashed = false) (w : W) (answers : Answers) :
    (∀ e locals caller, s.pc w = .createSession e locals caller →
      (Returns main maxSessionCount w answers 0 s ↔ answers.Settles 0)) ∧
    (∀ e, s.pc w = .processAccept e →
      (Returns main maxSessionCount w answers 0 s ↔ answers.Settles 0)) ∧
    (s.pc w = .idle → ∀ answer : Dequeued E S,
      (∀ packet, answer.packet = some packet → packet ∈ s.shared.queue) →
        (DispatchReturns main maxSessionCount w answers s answer ↔
          answer.TimedOut ∨ (answer.packet ≠ none ∧ answers.Settles 0))) := by
  have hworking : Working main maxSessionCount s := ⟨⟨as, hrun⟩, hlive⟩
  refine ⟨fun e locals caller hpc => ?_, fun e hpc => ?_, fun hidle answer hqueue => ?_⟩
  · exact returns_iff hworking (by rw [hpc]; rfl)
  · exact returns_iff hworking (by rw [hpc]; rfl)
  · exact dispatchReturns_iff hworking hidle hqueue

end

/-- A single event is armed. -/
def armed : List (Act Bool ℕ ℕ) :=
  List.replicate 6 (Act.run false (.succeeds true)) ++
    [Act.run false (.event 0), .run false .silent, .run false .silent,
      .run false (.session 0 true false), .run false .silent, .run false .silent,
      .run false (.acceptEx false errorIoPending), .complete 0 0 64 0]

/-- `AcceptEx` fails once. -/
def failingOnce : Answers where
  attempt n := ⟨true, n != 0, 10055⟩
  update := true
  peer := none

theorem calls_return_failingOnce : ∃ s : Server Bool ℕ ℕ,
    (machine Bool ℕ ℕ false 1).exec (machine Bool ℕ ℕ false 1).start armed = some s ∧
      DispatchReturns false 1 true failingOnce s (.failed 64 (some (0, 0))) := by
  have hcheck : ((machine Bool ℕ ℕ false 1).exec (machine Bool ℕ ℕ false 1).start armed).any
      fun s => s.crashed = false ∧ s.pc true = .idle ∧ s.shared.queue = [(0, 0)] := by
    decide
  obtain ⟨s, hexec, hprop⟩ := (Option.any_eq_true ..).mp hcheck
  obtain ⟨hlive, hidle, hqueue⟩ := of_decide_eq_true hprop
  refine ⟨s, hexec, ?_⟩
  obtain ⟨-, -, hdispatch⟩ := calls_return_iff (Machine.run_of_exec hexec) hlive true failingOnce
  refine (hdispatch hidle _ fun packet hpacket => ?_).mpr (.inr ⟨Option.some_ne_none _, ?_⟩)
  · cases hpacket
    rw [hqueue]
    exact List.mem_singleton.mpr rfl
  · exact ⟨1, Nat.zero_le 1, .inl rfl, fun _ _ _ => rfl⟩

/-- The first call of `RegisterAccept`, while another thread is in the loop over `Dispatch`. -/
def firstAttempt : List (Act Bool ℕ ℕ) :=
  List.replicate 6 (Act.run false (.succeeds true)) ++
    [Act.run false (.event 0), .run false .silent, .run false .silent]

/-- A session that is not registered, an error of `AcceptEx` that lasts, and a failure without an
event: no call returns. -/
theorem calls_do_not_return : ∃ as, ∃ s : Server Bool ℕ ℕ,
    (machine Bool ℕ ℕ false 1).Run Machine.Any as s ∧ s.crashed = false ∧
      s.pc false = .createSession 0 [] (.startAccept 0) ∧ s.pc true = .idle ∧
      ¬ Returns false 1 false ⟨fun _ => ⟨false, true, 0⟩, true, none⟩ 0 s ∧
      ¬ Returns false 1 false ⟨fun _ => ⟨true, false, 10038⟩, true, none⟩ 0 s ∧
      ¬ DispatchReturns false 1 true ⟨fun _ => ⟨true, true, 0⟩, true, none⟩ s
        (.failed 735 none) := by
  have hcheck : ((machine Bool ℕ ℕ false 1).exec (machine Bool ℕ ℕ false 1).start firstAttempt).any
      fun s => s.crashed = false ∧ s.pc false = .createSession 0 [] (.startAccept 0) ∧
        s.pc true = .idle := by
    decide
  obtain ⟨s, hexec, hprop⟩ := (Option.any_eq_true ..).mp hcheck
  obtain ⟨hlive, hpc, hidle⟩ := of_decide_eq_true hprop
  have hrun := Machine.run_of_exec hexec
  have hworking : Working false 1 s := ⟨⟨_, hrun⟩, hlive⟩
  have hentering : (s.pc false).entering = true := by
    rw [hpc]
    rfl
  refine ⟨firstAttempt, s, hrun, hlive, hpc, hidle, fun h => ?_, fun h => ?_, id⟩
  · obtain ⟨m, -, -, hregistered⟩ := (returns_iff hworking hentering).mp h
    exact Bool.false_ne_true (hregistered 0 le_rfl (Nat.zero_le m))
  · obtain ⟨m, -, hok | hpending, -⟩ := (returns_iff hworking hentering).mp h
    · exact Bool.false_ne_true hok
    · have hne : 10038 ≠ errorIoPending := by decide
      exact hne hpending

end CppServer.Listener
