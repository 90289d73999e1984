import CppServer.Listener.System

namespace CppServer.Listener

open Function Base

variable {W E S : Type}

/-- The event that a thread has created and not listed yet. -/
def Pc.unlisted : Pc E S → Option E
  | .setOwner e _ | .pushBack e _ => some e
  | _ => none

def Caller.starting : Caller S → Bool
  | .startAccept _ => true
  | .processAccept _ _ => false

/-- Whether a thread is inside `StartAccept`. -/
def Pc.starting : Pc E S → Bool
  | .setup _ | .loop _ | .setOwner _ _ | .pushBack _ _ => true
  | .createSession _ _ caller | .init _ _ _ caller | .setSession _ _ _ caller
  | .acceptEx _ _ _ caller | .unwind _ caller => caller.starting
  | .idle | .dispatch _ | .processAccept _ | .setUpdateAcceptSocket _ _ | .getpeername _ _
  | .setNetAddress _ _ _ => false

/-- An event that `Dispatch` hands to `ProcessAccept`. -/
def AcceptEvent.Ready (event : AcceptEvent S) : Prop :=
  event.eventType = .accept ∧ event.owner = some .listener

/-- What a thread may rely on about the event in its hands. -/
def Pc.Suits (event : E → AcceptEvent S) : Pc E S → Prop
  | .setOwner e _ => (event e).eventType = .accept
  | .pushBack e _ => (event e).Ready
  | .acceptEx e session _ _ => (event e).session = session
  | _ => True

theorem Pc.hand_of_unlisted {pc : Pc E S} {e : E} (h : pc.unlisted = some e) :
    pc.hand = some e := by
  cases pc <;> first | exact h | cases h

theorem Pc.starting_of_unlisted {pc : Pc E S} {e : E} (h : pc.unlisted = some e) :
    pc.starting = true := by
  cases pc <;> first | rfl | cases h

/-- What suits a thread depends on the event in its hands only. -/
theorem Pc.Suits.congr {pc : Pc E S} {event event' : E → AcceptEvent S}
    (hsame : ∀ e, pc.hand = some e → event' e = event e) (hsuits : pc.Suits event) :
    pc.Suits event' := by
  cases pc with
  | setOwner e | pushBack e | acceptEx e =>
    simp only [Suits, hsame e rfl]
    exact hsuits
  | _ => trivial

/-- What a step does to the events: the thread keeps the one in its hands, passes it to
the system, takes one from the system, creates one, or lists the one it has created. -/
inductive Effect (h : Shared E S) (pc : Pc E S) (h' : Shared E S) (pc' : Pc E S) : Prop
  | keep (hhand : pc'.hand = pc.hand) (hunlisted : pc'.unlisted = pc.unlisted)
      (hposted : h'.posted = h.posted) (hlisted : h'.acceptEvents = h.acceptEvents)
      (hready : ∀ e, (h.event e).Ready → (h'.event e).Ready)
      (hrest : ∀ e, pc.hand ≠ some e → h'.event e = h.event e)
  | arm (e : E) (x : S) (hhand : pc.hand = some e) (hhand' : pc'.hand = none)
      (hunlisted : pc.unlisted = none)
      (hposted : h'.posted.Perm ((e, x) :: h.posted)) (hlisted : h'.acceptEvents = h.acceptEvents)
      (hready : ∀ e, (h.event e).Ready → (h'.event e).Ready)
      (hrest : ∀ e, pc.hand ≠ some e → h'.event e = h.event e)
      (hsession : (h'.event e).session = some x)
  | take (e : E) (x : S) (hhand : pc.hand = none) (hhand' : pc'.hand = some e)
      (hposted : h.posted.Perm ((e, x) :: h'.posted)) (hlisted : h'.acceptEvents = h.acceptEvents)
      (hevent : h'.event = h.event)
  | create (e : E) (hhand : pc.hand = none) (hunlisted : pc'.unlisted = some e)
      (hnew : e ∉ h.acceptEvents)
      (hposted : h'.posted = h.posted) (hlisted : h'.acceptEvents = h.acceptEvents)
      (hrest : ∀ e', e' ≠ e → h'.event e' = h.event e')
  | list (e : E) (hunlisted : pc.unlisted = some e) (hhand' : pc'.hand = some e)
      (hready : (h.event e).Ready)
      (hposted : h'.posted = h.posted) (hlisted : h'.acceptEvents = h.acceptEvents ++ [e])
      (hevent : h'.event = h.event)

section

variable [DecidableEq E]

/-- Writing one event keeps the others, and keeps every event ready that was. -/
theorem ready_update {event : E → AcceptEvent S} {e : E} {value : AcceptEvent S}
    (hvalue : (event e).Ready → value.Ready) (e' : E) (hready : (event e').Ready) :
    (update event e value e').Ready := by
  by_cases he : e' = e
  · subst he
    rw [update_self]
    exact hvalue hready
  · rwa [update_of_ne he]

theorem update_rest {event : E → AcceptEvent S} {pc : Pc E S} {e : E} (value : AcceptEvent S)
    (hhand : pc.hand = some e) (e' : E) (hrest : pc.hand ≠ some e') :
    update event e value e' = event e' := by
  apply update_of_ne
  intro he
  exact hrest (he ▸ hhand)

variable [DecidableEq S]

theorem step_effect {h h' : Shared E S} {pc pc' : Pc E S} {outcome : Outcome E S}
    (hready : ∀ e, pc.hand = some e → pc.unlisted = none → (h.event e).Ready)
    (hsuits : pc.Suits h.event) (hstep : step h pc outcome = some (.step h' pc')) :
    Effect h pc h' pc' := by
  unfold step at hstep
  split at hstep
  case h_1 stage ok =>
    split at hstep <;> cases hstep <;> exact .keep rfl rfl rfl rfl (fun _ => id) fun _ _ => rfl
  case h_2 i e =>
    split at hstep
    case isTrue hnew =>
      cases hstep
      exact .create e rfl rfl hnew.2 rfl rfl fun e' he' => update_of_ne he' ..
    case isFalse => cases hstep
  case h_3 i =>
    split at hstep
    case isTrue => cases hstep
    case isFalse =>
      cases hstep
      exact .keep rfl rfl rfl rfl (fun _ => id) fun _ _ => rfl
  case h_4 e i =>
    cases hstep
    exact .keep rfl rfl rfl rfl (ready_update fun hvalue => ⟨hvalue.1, rfl⟩) (update_rest _ rfl)
  case h_5 e i =>
    cases hstep
    exact .list e rfl rfl hsuits rfl rfl rfl
  case h_6 e locals caller x registered keep =>
    split at hstep
    case isTrue =>
      cases hstep
      exact .keep rfl rfl rfl rfl (fun _ => id) fun _ _ => rfl
    case isFalse => cases hstep
  case h_7 e session locals caller =>
    cases hstep
    exact .keep rfl rfl rfl rfl (ready_update id) (update_rest _ rfl)
  case h_8 e session locals caller =>
    cases hstep
    exact .keep rfl rfl rfl rfl (ready_update id) (update_rest _ rfl)
  case h_9 e session locals caller ok errorCode =>
    split at hstep
    case h_1 => cases hstep
    case h_2 x =>
      split at hstep
      case isTrue =>
        cases hstep
        exact .keep rfl rfl rfl rfl (fun _ => id) fun _ _ => rfl
      case isFalse =>
        cases hstep
        refine .arm e x rfl rfl rfl ?_ rfl (ready_update id) (update_rest _ rfl) ?_
        · simp only [Shared.posted, List.append_assoc, List.singleton_append]
          exact List.perm_middle
        · simp only [update_self]
          exact hsuits
  case h_10 =>
    cases hstep
    exact .keep rfl rfl rfl rfl (fun _ => id) fun _ _ => rfl
  case h_11 caller =>
    cases hstep
    exact .keep (by cases caller <;> rfl) (by cases caller <;> rfl) rfl rfl (fun _ => id)
      fun _ _ => rfl
  case h_12 e x errorCode =>
    split at hstep
    case isTrue hmem =>
      cases hstep
      refine .take e x rfl rfl ?_ rfl rfl
      have hperm := (List.perm_cons_erase hmem.1).append_left h.pending
      exact hperm.trans List.perm_middle
    case isFalse => cases hstep
  case h_13 =>
    cases hstep
    exact .keep rfl rfl rfl rfl (fun _ => id) fun _ _ => rfl
  case h_14 e =>
    have howner := (hready e rfl rfl).2
    simp only [howner] at hstep
    split at hstep
    case isTrue =>
      cases hstep
      exact .keep rfl rfl rfl rfl (fun _ => id) fun _ _ => rfl
    case isFalse => cases hstep
  case h_15 e =>
    split at hstep <;> cases hstep
    exact .keep rfl rfl rfl rfl (fun _ => id) fun _ _ => rfl
  case h_16 e x ok =>
    split at hstep <;> cases hstep <;> exact .keep rfl rfl rfl rfl (fun _ => id) fun _ _ => rfl
  case h_17 e x sockAddress =>
    split at hstep <;> cases hstep <;> exact .keep rfl rfl rfl rfl (fun _ => id) fun _ _ => rfl
  case h_18 e x sockAddress =>
    cases hstep
    exact .keep rfl rfl rfl rfl (fun _ => id) fun _ _ => rfl
  case h_19 => cases hstep

/-- A thread enters `StartAccept` at no step. -/
theorem step_starting {h h' : Shared E S} {pc pc' : Pc E S} {outcome : Outcome E S}
    (hstep : step h pc outcome = some (.step h' pc')) (hstarting : pc'.starting = true) :
    pc.starting = true := by
  unfold step at hstep
  split at hstep
  case h_11 caller =>
    cases hstep
    cases caller with
    | startAccept => rfl
    | processAccept => cases hstarting
  all_goals
    repeat' split at hstep
    all_goals first | (cases hstep; done) | (cases hstep; first | rfl | exact hstarting)

/-- What suits the next place holds after the step. -/
theorem step_suits {h h' : Shared E S} {pc pc' : Pc E S} {outcome : Outcome E S}
    (hsuits : pc.Suits h.event) (hstep : step h pc outcome = some (.step h' pc')) :
    pc'.Suits h'.event := by
  unfold step at hstep
  split at hstep
  case h_2 i e =>
    split at hstep <;> cases hstep
    simp [Pc.Suits]
  case h_4 e i =>
    cases hstep
    simp only [Pc.Suits, AcceptEvent.Ready, update_self]
    exact ⟨hsuits, trivial⟩
  case h_8 e session locals caller =>
    cases hstep
    simp [Pc.Suits]
  case h_11 caller =>
    cases hstep
    cases caller <;> trivial
  all_goals
    repeat' split at hstep
    all_goals first | (cases hstep; done) | (cases hstep; trivial)

end

end CppServer.Listener
