import CppServer.Base.Custody
import CppServer.Listener.Events

namespace CppServer.Listener

open Function Base

variable {W E S : Type}

/-- The events that the system has been given. -/
def Shared.outstanding (h : Shared E S) : List E := h.posted.map Prod.fst

/-- The hands of all threads. -/
def Server.hand (s : Server W E S) (w : W) : Option E := (s.pc w).hand

/-- The events are with the system or with the threads, and each listed event is; an
event that is outstanding holds the session that the system was given with it. -/
structure Inv (main : W) (s : Server W E S) : Prop where
  custody : Custody s.shared.outstanding s.hand
  known : ∀ e ∈ s.shared.acceptEvents, Custody.Known s.shared.outstanding s.hand e
  listed : ∀ e, Custody.Known s.shared.outstanding s.hand e →
    e ∈ s.shared.acceptEvents ∨ ∃ w, (s.pc w).unlisted = some e
  starter : ∀ w, (s.pc w).starting = true → w = main
  ready : ∀ e ∈ s.shared.acceptEvents, (s.shared.event e).Ready
  suits : ∀ w, (s.pc w).Suits s.shared.event
  owned : ∀ r ∈ s.shared.posted, (s.shared.event r.1).session = some r.2

variable {main w : W} {s : Server W E S} {h : Shared E S} {pc : Pc E S}

/-- Another thread has another event in its hands. -/
theorem Inv.hand_ne (hinv : Inv main s) {v : W} {e : E} (hne : v ≠ w) (hv : s.hand v = some e) :
    (s.pc w).hand ≠ some e :=
  fun hw => hne (hinv.custody.sole v w e hv hw)

/-- The members that the invariant does not mention may change, and the system may
complete a call: no event is given to it or handed back. -/
theorem Inv.congr {s' : Server W E S} (hinv : Inv main s) (hpc : s'.pc = s.pc)
    (hposted : s'.shared.posted.Perm s.shared.posted)
    (hlisted : s'.shared.acceptEvents = s.shared.acceptEvents)
    (hready : ∀ e, (s.shared.event e).Ready → (s'.shared.event e).Ready)
    (hsession : ∀ e, (s'.shared.event e).session = (s.shared.event e).session)
    (hrest : ∀ w e, s.hand w = some e → s'.shared.event e = s.shared.event e) : Inv main s' := by
  have hout : s'.shared.outstanding.Perm s.shared.outstanding := hposted.map Prod.fst
  have hhands : s'.hand = s.hand := by
    funext v
    rw [Server.hand, hpc, Server.hand]
  have hknown (e : E) : Custody.Known s'.shared.outstanding s'.hand e ↔
      Custody.Known s.shared.outstanding s.hand e := by
    rw [hhands, Custody.Known, Custody.Known, hout.mem_iff]
  refine ⟨?_, fun e he => ?_, fun e he => ?_, fun v hv => ?_, fun e he => ?_, fun v => ?_,
    fun r hr => ?_⟩
  · rw [hhands]
    exact ⟨hout.nodup_iff.mpr hinv.custody.once,
      fun v e hv hmem => hinv.custody.apart v e hv (hout.mem_iff.mp hmem), hinv.custody.sole⟩
  · exact (hknown e).mpr (hinv.known e (hlisted ▸ he))
  · rw [hpc, hlisted]
    exact hinv.listed e ((hknown e).mp he)
  · exact hinv.starter v (hpc ▸ hv)
  · exact hready e (hinv.ready e (hlisted ▸ he))
  · rw [hpc]
    exact (hinv.suits v).congr fun e hv => hrest v e hv
  · rw [hsession]
    exact hinv.owned r (hposted.mem_iff.mp hr)

/-- An event in the hands of a thread that has not created it is listed. -/
theorem Inv.hand_listed (hinv : Inv main s) {e : E} (hhand : (s.pc w).hand = some e)
    (hunlisted : (s.pc w).unlisted = none) : e ∈ s.shared.acceptEvents := by
  rcases hinv.listed e (.inr ⟨w, hhand⟩) with hmem | ⟨v, hv⟩
  · exact hmem
  · have hvw : v = w := hinv.custody.sole v w e (Pc.hand_of_unlisted hv) hhand
    rw [hvw, hunlisted] at hv
    cases hv

theorem Inv.hand_ready (hinv : Inv main s) {e : E} (hhand : (s.pc w).hand = some e)
    (hunlisted : (s.pc w).unlisted = none) : (s.shared.event e).Ready :=
  hinv.ready e (hinv.hand_listed hhand hunlisted)

/-- What the thread does not have in its hands keeps the session that the system was
given with it. -/
theorem Inv.owned_of_rest (hinv : Inv main s)
    (hrest : ∀ e, (s.pc w).hand ≠ some e → h.event e = s.shared.event e) {r : E × S}
    (hr : r ∈ s.shared.posted) : (h.event r.1).session = some r.2 := by
  have hnot : (s.pc w).hand ≠ some r.1 :=
    fun hw => hinv.custody.apart w r.1 hw (List.mem_map_of_mem hr)
  rw [hrest r.1 hnot]
  exact hinv.owned r hr

variable [DecidableEq W]

/-- A thread that has no unlisted event in its hands leaves those of the others. -/
theorem Inv.listed_after (hinv : Inv main s) {e : E} (hunlisted : (s.pc w).unlisted ≠ some e)
    (hlisted : h.acceptEvents = s.shared.acceptEvents)
    (hknown : Custody.Known s.shared.outstanding s.hand e) :
    e ∈ h.acceptEvents ∨ ∃ v, ((s.after w h pc).pc v).unlisted = some e := by
  rcases hinv.listed e hknown with hmem | ⟨v, hv⟩
  · exact .inl (hlisted ▸ hmem)
  · have hne : v ≠ w := by
      rintro rfl
      exact hunlisted hv
    exact .inr ⟨v, by simpa only [Server.after, update_of_ne hne] using hv⟩

theorem Pc.unlisted_ne_of_hand {e : E} (hhand : pc.hand = none) : pc.unlisted ≠ some e := by
  intro hunlisted
  rw [Pc.hand_of_unlisted hunlisted] at hhand
  cases hhand

theorem Server.hand_after (s : Server W E S) (w : W) (h : Shared E S) (pc : Pc E S) :
    (s.after w h pc).hand = update s.hand w pc.hand := by
  funext v
  simp only [hand, after, update_apply]
  split <;> rfl

/-- The clauses about the places of single threads. -/
theorem Inv.places_after (hinv : Inv main s) (hsuits : pc.Suits h.event)
    (hstarting : pc.starting = true → (s.pc w).starting = true)
    (hrest : ∀ v e, v ≠ w → s.hand v = some e → h.event e = s.shared.event e) :
    (∀ v, ((s.after w h pc).pc v).starting = true → v = main) ∧
      ∀ v, ((s.after w h pc).pc v).Suits h.event := by
  constructor
  · intro v hv
    simp only [Server.after, update_apply] at hv
    split at hv
    case isTrue hvw => exact hvw ▸ hinv.starter w (hstarting hv)
    case isFalse => exact hinv.starter v hv
  · intro v
    simp only [Server.after, update_apply]
    split
    case isTrue => exact hsuits
    case isFalse hv => exact (hinv.suits v).congr fun e => hrest v e hv

theorem Inv.keep (hinv : Inv main s) (hsuits : pc.Suits h.event)
    (hstarting : pc.starting = true → (s.pc w).starting = true)
    (hhand : pc.hand = (s.pc w).hand) (hunlisted : pc.unlisted = (s.pc w).unlisted)
    (hposted : h.posted = s.shared.posted) (hlisted : h.acceptEvents = s.shared.acceptEvents)
    (hready : ∀ e, (s.shared.event e).Ready → (h.event e).Ready)
    (hrest : ∀ e, (s.pc w).hand ≠ some e → h.event e = s.shared.event e) :
    Inv main (s.after w h pc) := by
  have hout : h.outstanding = s.shared.outstanding := by
    rw [Shared.outstanding, hposted, Shared.outstanding]
  have hhands : (s.after w h pc).hand = s.hand := by
    rw [Server.hand_after, hhand]
    exact update_eq_self w s.hand
  have hunlisted' (v : W) : ((s.after w h pc).pc v).unlisted = (s.pc v).unlisted := by
    simp only [Server.after, update_apply]
    split
    case isTrue hv => rw [hv, hunlisted]
    case isFalse => rfl
  obtain ⟨hstarter, hsuits⟩ :=
    hinv.places_after hsuits hstarting fun v e hne hv => hrest e (hinv.hand_ne hne hv)
  refine ⟨?_, fun e he => ?_, fun e he => ?_, hstarter, fun e he => ?_, hsuits, fun r hr => ?_⟩
  · rw [hhands]
    exact hout ▸ hinv.custody
  · rw [hhands]
    exact hout ▸ hinv.known e (hlisted ▸ he)
  · rw [hhands] at he
    simp only [hunlisted']
    exact hlisted ▸ hinv.listed e (hout ▸ he)
  · exact hready e (hinv.ready e (hlisted ▸ he))
  · exact hinv.owned_of_rest hrest (hposted ▸ hr)

/-- The call of `AcceptEx` gives the event to the system. -/
theorem Inv.arm (hinv : Inv main s) (hsuits : pc.Suits h.event)
    (hstarting : pc.starting = true → (s.pc w).starting = true) {e : E} {x : S}
    (hhand : (s.pc w).hand = some e) (hhand' : pc.hand = none)
    (hunlisted : (s.pc w).unlisted = none)
    (hposted : h.posted.Perm ((e, x) :: s.shared.posted))
    (hlisted : h.acceptEvents = s.shared.acceptEvents)
    (hready : ∀ e, (s.shared.event e).Ready → (h.event e).Ready)
    (hrest : ∀ e, (s.pc w).hand ≠ some e → h.event e = s.shared.event e)
    (hsession : (h.event e).session = some x) : Inv main (s.after w h pc) := by
  have hout : h.outstanding.Perm (e :: s.shared.outstanding) := hposted.map Prod.fst
  obtain ⟨hstarter, hsuits⟩ :=
    hinv.places_after hsuits hstarting fun v e hne hv => hrest e (hinv.hand_ne hne hv)
  refine ⟨?_, fun e' he => ?_, fun e' he => ?_, hstarter, fun e' he => ?_, hsuits, fun r hr => ?_⟩
  · rw [Server.hand_after, hhand']
    exact hinv.custody.put hhand hout
  · rw [Server.hand_after, hhand']
    apply (hinv.known e' (hlisted ▸ he)).update
    · exact fun hmem => .inl (hout.mem_iff.mpr (.tail _ hmem))
    · intro hw
      rw [Server.hand, hhand] at hw
      cases hw
      exact .inl (hout.mem_iff.mpr (.head _))
  · rw [Server.hand_after, hhand'] at he
    have hknown : Custody.Known s.shared.outstanding s.hand e' := by
      refine he.of_update (fun hmem => ?_) nofun
      rcases List.mem_cons.mp (hout.mem_iff.mp hmem) with rfl | hmem
      · exact .inr ⟨w, hhand⟩
      · exact .inl hmem
    exact hinv.listed_after (hunlisted ▸ (Option.some_ne_none e').symm) hlisted hknown
  · exact hready e' (hinv.ready e' (hlisted ▸ he))
  · rcases List.mem_cons.mp (hposted.mem_iff.mp hr) with rfl | hr
    · exact hsession
    · exact hinv.owned_of_rest hrest hr

/-- A completion is dequeued. -/
theorem Inv.take (hinv : Inv main s) (hsuits : pc.Suits h.event)
    (hstarting : pc.starting = true → (s.pc w).starting = true) {e : E} {x : S}
    (hhand : (s.pc w).hand = none) (hhand' : pc.hand = some e)
    (hposted : s.shared.posted.Perm ((e, x) :: h.posted))
    (hlisted : h.acceptEvents = s.shared.acceptEvents) (hevent : h.event = s.shared.event) :
    Inv main (s.after w h pc) := by
  have hout : s.shared.outstanding.Perm (e :: h.outstanding) := hposted.map Prod.fst
  have hpool {e' : E} (hmem : e' ∈ h.outstanding) : e' ∈ s.shared.outstanding :=
    hout.mem_iff.mpr (.tail _ hmem)
  obtain ⟨hstarter, hsuits⟩ :=
    hinv.places_after hsuits hstarting fun v e _ _ => congrFun hevent e
  refine ⟨?_, fun e' he => ?_, fun e' he => ?_, hstarter, fun e' he => ?_, hsuits, fun r hr => ?_⟩
  · rw [Server.hand_after, hhand']
    exact hinv.custody.take hout
  · rw [Server.hand_after, hhand']
    apply (hinv.known e' (hlisted ▸ he)).update
    · intro hmem
      rcases List.mem_cons.mp (hout.mem_iff.mp hmem) with rfl | hmem
      · exact .inr rfl
      · exact .inl hmem
    · intro hw
      rw [Server.hand, hhand] at hw
      cases hw
  · rw [Server.hand_after, hhand'] at he
    have hknown : Custody.Known s.shared.outstanding s.hand e' := by
      refine he.of_update (fun hmem => .inl (hpool hmem)) fun he => ?_
      cases he
      exact .inl (hout.mem_iff.mpr (.head _))
    exact hinv.listed_after (Pc.unlisted_ne_of_hand hhand) hlisted hknown
  · simp only [Server.after, hevent]
    exact hinv.ready e' (hlisted ▸ he)
  · simp only [Server.after, hevent]
    exact hinv.owned r (hposted.mem_iff.mpr (.tail _ hr))

/-- `StartAccept` creates an event. -/
theorem Inv.create (hinv : Inv main s) (hsuits : pc.Suits h.event)
    (hstarting : pc.starting = true → (s.pc w).starting = true) {e : E}
    (hhand : (s.pc w).hand = none) (hunlisted : pc.unlisted = some e)
    (hnew : e ∉ s.shared.acceptEvents) (hposted : h.posted = s.shared.posted)
    (hlisted : h.acceptEvents = s.shared.acceptEvents)
    (hrest : ∀ e', e' ≠ e → h.event e' = s.shared.event e') : Inv main (s.after w h pc) := by
  have hout : h.outstanding = s.shared.outstanding := by
    rw [Shared.outstanding, hposted, Shared.outstanding]
  -- only the thread in `StartAccept` could have an event that is not listed
  have hnowhere : ¬ Custody.Known s.shared.outstanding s.hand e := by
    intro hknown
    rcases hinv.listed e hknown with hmem | ⟨v, hv⟩
    · exact hnew hmem
    · have hv' := hinv.starter v (Pc.starting_of_unlisted hv)
      have hw' := hinv.starter w (hstarting (Pc.starting_of_unlisted hunlisted))
      rw [hv', ← hw'] at hv
      rw [Pc.hand_of_unlisted hv] at hhand
      cases hhand
  have hne {e' : E} (hknown : Custody.Known s.shared.outstanding s.hand e') : e' ≠ e := by
    rintro rfl
    exact hnowhere hknown
  obtain ⟨hstarter, hsuits⟩ :=
    hinv.places_after hsuits hstarting fun v e' _ hv => hrest e' (hne (.inr ⟨v, hv⟩))
  have hhand' := Pc.hand_of_unlisted hunlisted
  refine ⟨?_, fun e' he => ?_, fun e' he => ?_, hstarter, fun e' he => ?_, hsuits, fun r hr => ?_⟩
  · rw [Server.hand_after, hhand']
    exact hout ▸ hinv.custody.gain hnowhere
  · rw [Server.hand_after, hhand']
    apply (hinv.known e' (hlisted ▸ he)).update
    · exact fun hmem => .inl (hout ▸ hmem)
    · intro hw
      rw [Server.hand, hhand] at hw
      cases hw
  · rcases he with hmem | ⟨v, hv⟩
    · have hmem : e' ∈ s.shared.outstanding := hout ▸ hmem
      rcases hinv.listed e' (.inl hmem) with hmem | ⟨v, hv⟩
      · exact .inl (hlisted ▸ hmem)
      · exact absurd hmem (hinv.custody.apart v e' (Pc.hand_of_unlisted hv))
    · rw [Server.hand_after] at hv
      obtain ⟨-, he⟩ | ⟨hvw, hv⟩ := Custody.hand_of_update hv
      · rw [hhand'] at he
        cases he
        exact .inr ⟨w, by simpa only [Server.after, update_self] using hunlisted⟩
      · exact hinv.listed_after (Pc.unlisted_ne_of_hand hhand) hlisted (.inr ⟨v, hv⟩)
  · have he : e' ∈ s.shared.acceptEvents := hlisted ▸ he
    simp only [Server.after, hrest e' fun h => hnew (h ▸ he)]
    exact hinv.ready e' he
  · have hr : r ∈ s.shared.posted := hposted ▸ hr
    simp only [Server.after, hrest r.1 (hne (.inl (List.mem_map_of_mem hr)))]
    exact hinv.owned r hr

/-- `StartAccept` lists the event that it has created. -/
theorem Inv.list (hinv : Inv main s) (hsuits : pc.Suits h.event)
    (hstarting : pc.starting = true → (s.pc w).starting = true) {e : E}
    (hunlisted : (s.pc w).unlisted = some e) (hhand' : pc.hand = some e)
    (hready : (s.shared.event e).Ready) (hposted : h.posted = s.shared.posted)
    (hlisted : h.acceptEvents = s.shared.acceptEvents ++ [e])
    (hevent : h.event = s.shared.event) : Inv main (s.after w h pc) := by
  have hout : h.outstanding = s.shared.outstanding := by
    rw [Shared.outstanding, hposted, Shared.outstanding]
  have hhands : (s.after w h pc).hand = s.hand := by
    rw [Server.hand_after, hhand', ← Pc.hand_of_unlisted hunlisted]
    exact update_eq_self w s.hand
  obtain ⟨hstarter, hsuits⟩ :=
    hinv.places_after hsuits hstarting fun v e _ _ => congrFun hevent e
  refine ⟨?_, fun e' he => ?_, fun e' he => ?_, hstarter, fun e' he => ?_, hsuits, fun r hr => ?_⟩
  · rw [hhands]
    exact hout ▸ hinv.custody
  · rw [hhands]
    simp only [Server.after, hlisted, List.mem_append, List.mem_singleton] at he
    rcases he with he | rfl
    · exact hout ▸ hinv.known e' he
    · exact .inr ⟨w, Pc.hand_of_unlisted hunlisted⟩
  · rw [hhands] at he
    simp only [Server.after, hlisted, List.mem_append, List.mem_singleton]
    rcases hinv.listed e' (hout ▸ he) with hmem | ⟨v, hv⟩
    · exact .inl (.inl hmem)
    · by_cases hvw : v = w
      · subst hvw
        rw [hunlisted] at hv
        cases hv
        exact .inl (.inr rfl)
      · exact .inr ⟨v, by simpa only [update_of_ne hvw] using hv⟩
  · simp only [Server.after, hlisted, hevent, List.mem_append, List.mem_singleton] at he ⊢
    rcases he with he | rfl
    · exact hinv.ready e' he
    · exact hready
  · simp only [Server.after, hevent]
    exact hinv.owned r (hposted ▸ hr)

variable [DecidableEq E] [DecidableEq S]

theorem Inv.run (hinv : Inv main s) {outcome : Outcome E S}
    (hstep : step s.shared (s.pc w) outcome = some (.step h pc)) : Inv main (s.after w h pc) := by
  have hsuits := step_suits (hinv.suits w) hstep
  have hstarting := step_starting hstep
  cases step_effect (fun e => hinv.hand_ready) (hinv.suits w) hstep with
  | keep hhand hunlisted hposted hlisted hready hrest =>
    exact hinv.keep hsuits hstarting hhand hunlisted hposted hlisted hready hrest
  | arm e x hhand hhand' hunlisted hposted hlisted hready hrest hsession =>
    exact hinv.arm hsuits hstarting hhand hhand' hunlisted hposted hlisted hready hrest hsession
  | take e x hhand hhand' hposted hlisted hevent =>
    exact hinv.take hsuits hstarting hhand hhand' hposted hlisted hevent
  | create e hhand hunlisted hnew hposted hlisted hrest =>
    exact hinv.create hsuits hstarting hhand hunlisted hnew hposted hlisted hrest
  | list e hunlisted hhand' hready hposted hlisted hevent =>
    exact hinv.list hsuits hstarting hunlisted hhand' hready hposted hlisted hevent

theorem inv_start (maxSessionCount : ℤ) : Inv main (machine W E S main maxSessionCount).start := by
  have hstart (w : W) : ((machine W E S main maxSessionCount).start.pc w = .setup .createSocket ∧ w = main) ∨
      (machine W E S main maxSessionCount).start.pc w = .idle := by
    simp only [machine, update_apply]
    split
    case isTrue h => exact .inl ⟨rfl, h⟩
    case isFalse => exact .inr rfl
  have hhand (w : W) : (machine W E S main maxSessionCount).start.hand w = none := by
    rw [Server.hand]
    rcases hstart w with ⟨h, -⟩ | h <;> rw [h] <;> rfl
  refine ⟨⟨.nil, fun w e hw => ?_, fun w w' e hw => ?_⟩, nofun, fun e he => ?_, fun w hw => ?_, nofun,
    fun w => ?_, nofun⟩
  · rw [hhand] at hw
    cases hw
  · rw [hhand] at hw
    cases hw
  · rcases he with hmem | ⟨w, hw⟩
    · cases hmem
    · rw [hhand] at hw
      cases hw
  · rcases hstart w with ⟨-, h⟩ | h
    · exact h
    · rw [h] at hw
      cases hw
  · rcases hstart w with ⟨h, -⟩ | h <;> rw [h] <;> trivial

theorem inv_step {s s' : Server W E S} {a : Act W E S} (hinv : Inv main s)
    (hstep : s.step a = some s') : Inv main s' := by
  have hexternal (ha : a.external = true) : Inv main s' := by
    have hsame := Server.step_external ha hstep
    exact hinv.congr hsame.pc (.of_eq hsame.posted) hsame.acceptEvents
      (fun e => by rw [hsame.event]; exact id) (fun e => by rw [hsame.event])
      fun _ e _ => by rw [hsame.event]
  cases a with
  | run w outcome =>
    rcases Server.step_run hstep with ⟨-, rfl⟩ | ⟨h, pc, hcode, rfl⟩
    · exact hinv.congr rfl (.refl _) rfl (fun _ => id) (fun _ => rfl) fun _ _ _ => rfl
    · exact hinv.run hcode
  | complete e x status bytes =>
    obtain ⟨hmem, rfl⟩ := Server.step_complete hstep
    have hout : e ∈ s.shared.outstanding :=
      List.mem_map_of_mem (List.mem_append_left s.shared.queue hmem)
    refine hinv.congr rfl ?_ rfl (ready_update id) (fun e' => ?_) fun w e' hw => ?_
    · have hperm := List.perm_cons_erase hmem
      refine .trans ?_ (hperm.symm.append_right s.shared.queue)
      simp only [Server.complete, Shared.posted, ← List.append_assoc]
      exact List.perm_append_singleton ..
    · by_cases he : e' = e
      · subst he
        simp only [Server.complete, update_self]
      · simp only [Server.complete, update_of_ne he]
    · have he : e' ≠ e := by
        rintro rfl
        exact hinv.custody.apart w e' hw hout
      simp only [Server.complete, update_of_ne he]
  | addSession | releaseSession | forget => exact hexternal rfl

theorem inv_run {maxSessionCount : ℤ} {as : List (Act W E S)} {s : Server W E S}
    (hrun : (machine W E S main maxSessionCount).Run Machine.Any as s) : Inv main s :=
  hrun.invariant (inv_start maxSessionCount) fun _ _ _ hinv _ hstep => inv_step hinv hstep

end CppServer.Listener
