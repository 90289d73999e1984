import CppServer.Base.Progress
import CppServer.Listener.Armed
import CppServer.Listener.Sessions

namespace CppServer.Listener

open Function Base

variable {W E S : Type}

/-- Where the references to the sessions that exist come from in a step of the code: what there is
after the step was there before. -/
structure Copies (h : Shared E S) (pc : Pc E S) (h' : Shared E S) (pc' : Pc E S) : Prop where
  created : ∀ x, h.created x = true → h'.created x = true
  application : ∀ x, h.created x = true → h'.application x = true → h.application x = true
  event : ∀ x e, (h'.event e).session = some x → (h.event e).session = some x ∨
    x ∈ pc.locals ∧ pc.hand = some e ∧ pc.unlisted = none
  locals : ∀ x, h.created x = true → x ∈ pc'.locals →
    x ∈ pc.locals ∨ ∃ e, (h.event e).session = some x

/-- The step writes no event. -/
theorem Copies.of_same {h h' : Shared E S} {pc pc' : Pc E S} (hcreated : h'.created = h.created)
    (happlication : h'.application = h.application) (hevent : h'.event = h.event)
    (hlocals : ∀ x ∈ pc'.locals, x ∈ pc.locals ∨ ∃ e, (h.event e).session = some x) :
    Copies h pc h' pc' where
  created _ hx := hcreated ▸ hx
  application _ _ hx := happlication ▸ hx
  event _ _ hx := .inl (hevent ▸ hx)
  locals x _ := hlocals x

/-- The factory makes a session that is new. -/
theorem Copies.of_create [DecidableEq S] {h : Shared E S} {x : S} (hnew : h.created x = false) (registered keep : Bool)
    (e : E) (locals : List S) (caller : Caller S) :
    Copies h (.createSession e locals caller)
      { h with created := update h.created x true, application := update h.application x keep }
      (.init e (Service.createSession x registered) locals caller) := by
  have hne (y : S) (hy : h.created y = true) : y ≠ x := by
    rintro rfl
    rw [hnew] at hy
    cases hy
  refine ⟨fun y hy => ?_, fun y hy happlication => ?_, fun _ _ => .inl, fun y hy hlocals => ?_⟩
  · simp only [update_of_ne (hne y hy), hy]
  · simpa only [update_of_ne (hne y hy)] using happlication
  · left
    simp only [Pc.locals, List.append_assoc, List.mem_append] at hlocals ⊢
    refine hlocals.resolve_left fun hsession => hne y hy ?_
    cases registered with
    | false => cases hsession
    | true => exact List.mem_singleton.mp hsession

variable [DecidableEq E]

/-- The step writes one event. -/
theorem Copies.of_update {h h' : Shared E S} {pc pc' : Pc E S} (e : E) (value : AcceptEvent S)
    (hcreated : h'.created = h.created) (happlication : h'.application = h.application)
    (hevent : h'.event = update h.event e value)
    (hvalue : ∀ x, value.session = some x → (h.event e).session = some x ∨
      x ∈ pc.locals ∧ pc.hand = some e ∧ pc.unlisted = none)
    (hlocals : ∀ x ∈ pc'.locals, x ∈ pc.locals) : Copies h pc h' pc' where
  created _ hx := hcreated ▸ hx
  application _ _ hx := happlication ▸ hx
  event x e' hx := by
    rw [hevent] at hx
    by_cases he : e' = e
    · subst he
      rw [update_self] at hx
      exact hvalue x hx
    · rw [update_of_ne he] at hx
      exact .inl hx
  locals x _ hx := .inl (hlocals x hx)

variable [DecidableEq S]

/-- The step lemma: the code makes references from references, and from new sessions. -/
theorem step_copies {h h' : Shared E S} {pc pc' : Pc E S} {outcome : Outcome E S}
    (hstep : step h pc outcome = some (.step h' pc')) : Copies h pc h' pc' := by
  unfold step at hstep
  split at hstep
  case h_2 i e =>
    split at hstep <;> cases hstep
    exact .of_update e {} rfl rfl rfl (fun _ hx => nomatch hx) fun _ => id
  case h_4 e i =>
    cases hstep
    exact .of_update e _ rfl rfl rfl (fun _ => .inl) fun _ => id
  case h_6 e locals caller x registered keep =>
    split at hstep
    case isTrue hnew =>
      cases hstep
      exact .of_create hnew registered keep e locals caller
    case isFalse => cases hstep
  case h_7 e session locals caller =>
    cases hstep
    exact .of_update e _ rfl rfl rfl (fun _ => .inl) fun _ => id
  case h_8 e session locals caller =>
    cases hstep
    refine .of_update e _ rfl rfl rfl (fun x hx => .inr ⟨?_, rfl, rfl⟩) fun _ => id
    simp [Pc.locals, show session = some x from hx]
  case h_9 e session locals caller ok errorCode =>
    split at hstep
    case h_1 => cases hstep
    case h_2 x =>
      split at hstep
      case isTrue =>
        cases hstep
        exact .of_same rfl rfl rfl fun _ => .inl
      case isFalse =>
        cases hstep
        exact .of_update e _ rfl rfl rfl (fun _ => .inl) fun _ => id
  case h_10 y locals caller =>
    cases hstep
    exact .of_same rfl rfl rfl fun _ hx => .inl (List.mem_cons_of_mem y hx)
  case h_11 caller =>
    cases hstep
    refine .of_same rfl rfl rfl fun _ hx => ?_
    cases caller <;> cases hx
  case h_15 e =>
    split at hstep
    case h_1 => cases hstep
    case h_2 x hsession =>
      cases hstep
      refine .of_same rfl rfl rfl fun y hy => .inr ⟨e, ?_⟩
      rw [hsession, List.mem_singleton.mp hy]
  -- the other steps write no event, and keep the variables of the thread or drop them
  all_goals
    repeat' split at hstep
    all_goals first | (cases hstep; done) | (cases hstep; exact .of_same rfl rfl rfl fun _ hx => .inl hx)

theorem session_complete (s : Server W E S) (e : E) (y : S) (status bytes : ℕ) (e' : E) :
    ((s.complete e y status bytes).shared.event e').session = (s.shared.event e').session := by
  simp only [Server.complete, update_apply]
  split
  case isTrue he => rw [he]
  case isFalse => rfl

section Server

variable [DecidableEq W] {s s' : Server W E S} {a : Act W E S} {main : W} {maxSessionCount : ℤ}

/-- A session that exists is referred to after a step only if it was before. -/
theorem Server.referenced_step (hstep : s.step a = some s') {x : S} (hcreated : s.shared.created x = true) :
    s'.shared.created x = true ∧ (s'.Referenced x → s.Referenced x) := by
  cases a with
  | run w outcome =>
    rcases step_run hstep with ⟨-, rfl⟩ | ⟨h, pc, hcode, rfl⟩
    · exact ⟨hcreated, id⟩
    · have hcopies := step_copies hcode
      refine ⟨hcopies.created x hcreated, ?_⟩
      rintro (hsessions | happlication | ⟨e, hevent⟩ | ⟨v, hlocals⟩)
      · have hservice := (step_sessions hcode).1
        simp only [after, hservice] at hsessions
        exact .inl hsessions
      · exact .inr (.inl (hcopies.application x hcreated happlication))
      · rcases hcopies.event x e hevent with hbefore | ⟨hlocals, -⟩
        · exact .inr (.inr (.inl ⟨e, hbefore⟩))
        · exact .inr (.inr (.inr ⟨w, hlocals⟩))
      · simp only [after, update_apply] at hlocals
        split at hlocals
        case isTrue =>
          rcases hcopies.locals x hcreated hlocals with hbefore | hbefore
          · exact .inr (.inr (.inr ⟨w, hbefore⟩))
          · exact .inr (.inr (.inl hbefore))
        case isFalse => exact .inr (.inr (.inr ⟨v, hlocals⟩))
  | complete e y status bytes =>
    obtain ⟨-, rfl⟩ := step_complete hstep
    refine ⟨hcreated, ?_⟩
    rintro (hsessions | happlication | ⟨e', hevent⟩ | hlocals)
    · exact .inl hsessions
    · exact .inr (.inl happlication)
    · exact .inr (.inr (.inl ⟨e', session_complete s e y status bytes e' ▸ hevent⟩))
    · exact .inr (.inr (.inr hlocals))
  | addSession y =>
    simp only [step] at hstep
    split at hstep
    case isTrue hy =>
      cases hstep
      refine ⟨hcreated, ?_⟩
      rintro (hsessions | hrest)
      · rcases Finset.mem_insert.mp hsessions with rfl | hsessions
        · exact .inr (.inl hy.2)
        · exact .inl hsessions
      · exact .inr hrest
    case isFalse => cases hstep
  | releaseSession y =>
    simp only [step] at hstep
    split at hstep
    case isTrue =>
      split at hstep
      case h_1 =>
        cases hstep
        exact ⟨hcreated, id⟩
      case h_2 service hservice =>
        cases hstep
        refine ⟨hcreated, ?_⟩
        rintro (hsessions | hrest)
        · rw [(Service.releaseSession_eq hservice).2.1] at hsessions
          exact .inl (Finset.mem_of_mem_erase hsessions)
        · exact .inr hrest
    case isFalse => cases hstep
  | forget y =>
    simp only [step] at hstep
    split at hstep <;> cases hstep
    refine ⟨hcreated, ?_⟩
    rintro (hsessions | happlication | hrest)
    · exact .inl hsessions
    · simp only [update_apply] at happlication
      split at happlication
      case isTrue => cases happlication
      case isFalse => exact .inr (.inl happlication)
    · exact .inr (.inr hrest)

/-- A session is destroyed once. From then on nothing refers to it, and the system has its socket in
no call of `AcceptEx`. -/
theorem destroyed_forever {as bs : List (Act W E S)}
    (hrun : (machine W E S main maxSessionCount).Run Machine.Any (as ++ bs) s')
    (hexec : (machine W E S main maxSessionCount).exec (machine W E S main maxSessionCount).start as =
      some s) {x : S} (hdestroyed : s.Destroyed x) :
    s'.Destroyed x ∧ ∀ e, (e, x) ∉ s'.shared.posted := by
  have hstable : s'.Destroyed x := by
    refine hrun.stable (P := fun r => r.Destroyed x) (fun _ r _ r' _ hr _ hstep => ?_) hexec hdestroyed
    obtain ⟨hcreated, hreferenced⟩ := Server.referenced_step hstep hr.1
    exact ⟨hcreated, fun h => hr.2 (hreferenced h)⟩
  refine ⟨hstable, fun e hposted => hstable.2 ?_⟩
  exact .inr (.inr (.inl ⟨e, (inv_run hrun).owned (e, x) hposted⟩))

/-- The event goes on with its next session after the first one has been destroyed. -/
theorem destroyed_forever_next : ∃ s : Server Bool Unit (Fin 2),
    (machine Bool Unit (Fin 2) false 1).exec (machine Bool Unit (Fin 2) false 1).start
        (accepting 0 1 false [] ++ [.complete () 1 0 0, .run true (.packet () 1 none)]) = some s ∧
      s.Destroyed 0 ∧ ∀ e, (e, 0) ∉ s.shared.posted := by
  have hfirst : (((machine Bool Unit (Fin 2) false 1).exec (machine Bool Unit (Fin 2) false 1).start
      (accepting 0 1 false [])).any fun s => s.Destroyed 0) = true := by
    decide
  obtain ⟨s, hs, hdestroyed⟩ := (Option.any_eq_true ..).mp hfirst
  have hnext : ((machine Bool Unit (Fin 2) false 1).exec (machine Bool Unit (Fin 2) false 1).start
      (accepting 0 1 false [] ++ [.complete () 1 0 0, .run true (.packet () 1 none)])).isSome := by
    decide
  obtain ⟨s', hs'⟩ := Option.isSome_iff_exists.mp hnext
  exact ⟨s', hs', destroyed_forever (Machine.run_of_exec hs') hs (of_decide_eq_true hdestroyed)⟩

/-- Only listed events hold sessions. -/
def Listed (s : Server W E S) : Prop :=
  ∀ e x, (s.shared.event e).session = some x → e ∈ s.shared.acceptEvents

theorem Inv.listed_step (hinv : Inv main s) (hlisted : Listed s) (hstep : s.step a = some s') :
    Listed s' := by
  intro e x hx
  have hexternal (ha : a.external = true) : e ∈ s'.shared.acceptEvents := by
    have hsame := Server.step_external ha hstep
    rw [hsame.event] at hx
    rw [hsame.acceptEvents]
    exact hlisted e x hx
  cases a with
  | run w outcome =>
    rcases Server.step_run hstep with ⟨-, rfl⟩ | ⟨h, pc, hcode, rfl⟩
    · exact hlisted e x hx
    · have hgrows : ∀ e ∈ s.shared.acceptEvents, e ∈ h.acceptEvents := by
        cases step_effect (fun e => hinv.hand_ready) (hinv.suits w) hcode with
        | keep _ _ _ hsame | arm _ _ _ _ _ _ hsame | take _ _ _ _ _ hsame | create _ _ _ _ _ hsame =>
          rw [hsame]
          exact fun _ => id
        | list e _ _ _ _ happend =>
          rw [happend]
          exact fun _ => List.mem_append_left [e]
      rcases (step_copies hcode).event x e hx with hbefore | ⟨-, hhand, hunlisted⟩
      · exact hgrows e (hlisted e x hbefore)
      · exact hgrows e (hinv.hand_listed hhand hunlisted)
  | complete e' y status bytes =>
    obtain ⟨-, rfl⟩ := Server.step_complete hstep
    rw [session_complete] at hx
    exact hlisted e x hx
  | addSession | releaseSession | forget => exact hexternal rfl

theorem listed_run {as : List (Act W E S)}
    (hrun : (machine W E S main maxSessionCount).Run Machine.Any as s) : Inv main s ∧ Listed s := by
  apply hrun.invariant (P := fun s => Inv main s ∧ Listed s)
  · exact ⟨inv_start maxSessionCount, fun _ _ hx => nomatch hx⟩
  · exact fun s a s' h _ hstep => ⟨inv_step h.1 hstep, h.1.listed_step h.2 hstep⟩

omit [DecidableEq E] [DecidableEq W] in
theorem Listed.card_le [Fintype W] (hlisted : Listed s) (alive : Finset S)
    (halive : ∀ x ∈ alive, s.Referenced x ∧ x ∉ s.shared.service.sessions ∧
      s.shared.application x = false) :
    alive.card ≤ s.shared.acceptEvents.length + ∑ w, (s.pc w).locals.length := by
  let held := (s.shared.acceptEvents.filterMap fun e => (s.shared.event e).session).toFinset
  let used := Finset.univ.biUnion fun w => (s.pc w).locals.toFinset
  have hsubset : alive ⊆ held ∪ used := by
    intro x hx
    obtain ⟨hreferenced, hout, happlication⟩ := halive x hx
    rcases hreferenced with hsessions | hkept | ⟨e, hevent⟩ | ⟨w, hlocals⟩
    · exact absurd hsessions hout
    · rw [happlication] at hkept
      cases hkept
    · exact Finset.mem_union_left _ (List.mem_toFinset.mpr
        (List.mem_filterMap.mpr ⟨e, hlisted e x hevent, hevent⟩))
    · exact Finset.mem_union_right _ (Finset.mem_biUnion.mpr
        ⟨w, Finset.mem_univ w, List.mem_toFinset.mpr hlocals⟩)
  calc
    alive.card ≤ (held ∪ used).card := Finset.card_le_card hsubset
    _ ≤ held.card + used.card := Finset.card_union_le held used
    _ ≤ s.shared.acceptEvents.length + ∑ w, (s.pc w).locals.length := by
      apply Nat.add_le_add
      · exact (List.toFinset_card_le _).trans (List.length_filterMap_le ..)
      · exact Finset.card_biUnion_le.trans (Finset.sum_le_sum fun w _ => List.toFinset_card_le _)

/-- The sockets that the server keeps open for itself. Of the sessions that are alive, those that
neither the service's set nor the application refers to are at most one for each event of
`_acceptEvents` and one for each variable of a call in flight; at rest, at most one for each
event. -/
theorem card_alive_le [Fintype W] {as : List (Act W E S)}
    (hrun : (machine W E S main maxSessionCount).Run Machine.Any as s) (alive : Finset S)
    (halive : ∀ x ∈ alive, s.Referenced x ∧ x ∉ s.shared.service.sessions ∧
      s.shared.application x = false) :
    alive.card ≤ s.shared.acceptEvents.length + ∑ w, (s.pc w).locals.length ∧
      ((∀ w, s.pc w = .idle) → alive.card ≤ s.shared.acceptEvents.length) := by
  have hle := (listed_run hrun).2.card_le alive halive
  refine ⟨hle, fun hidle => ?_⟩
  simpa [hidle, Pc.locals] using hle

theorem card_alive_le_one : ∃ s : Server Bool Unit (Fin 2),
    (machine Bool Unit (Fin 2) false 1).exec (machine Bool Unit (Fin 2) false 1).start
        (accepting 0 1 false []) = some s ∧
      s.Referenced 1 ∧ ∀ alive : Finset (Fin 2), (∀ x ∈ alive, s.Referenced x) → alive.card ≤ 1 := by
  have hend : (((machine Bool Unit (Fin 2) false 1).exec (machine Bool Unit (Fin 2) false 1).start
      (accepting 0 1 false [])).any fun s => (∀ w, s.pc w = .idle) ∧
        (s.shared.event ()).session = some 1 ∧ s.shared.service.sessions = ∅ ∧
        (∀ x, s.shared.application x = false) ∧ s.shared.acceptEvents.length = 1) = true := by
    decide
  obtain ⟨s, hs, hprop⟩ := (Option.any_eq_true ..).mp hend
  obtain ⟨hidle, hevent, hsessions, happlication, hevents⟩ := of_decide_eq_true hprop
  refine ⟨s, hs, .inr (.inr (.inl ⟨(), hevent⟩)), fun alive halive => ?_⟩
  have hle := card_alive_le (Machine.run_of_exec hs) alive
    fun x hx => ⟨halive x hx, by simp [hsessions], happlication x⟩
  exact (hle.2 hidle).trans_eq hevents

end Server

end CppServer.Listener
