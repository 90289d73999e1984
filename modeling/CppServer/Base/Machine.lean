import Mathlib

namespace Base

/-- A machine with one initial state and a partial step function. A label
resolves every choice of the environment, so a step is deterministic in its
label; `none` says that the label is not enabled in the state. -/
structure Machine (σ α : Type) where
  start : σ
  step : σ → α → Option σ

namespace Machine

variable {σ α : Type}

/-- Execute labels from left to right. -/
def exec (M : Machine σ α) : σ → List α → Option σ
  | s, [] => some s
  | s, a :: as => (M.step s a).bind fun next => M.exec next as

/-- The runs whose every step satisfies `ok`, a condition on the state before
the step, its label, and the state after it. -/
inductive Run (M : Machine σ α) (ok : σ → α → σ → Prop) : List α → σ → Prop
  | start : Run M ok [] M.start
  | snoc {as : List α} {s s' : σ} {a : α} :
      Run M ok as s → ok s a s' → M.step s a = some s' → Run M ok (as ++ [a]) s'

/-- The condition that restricts nothing. -/
abbrev Any : σ → α → σ → Prop := fun _ _ _ => True

theorem exec_append (M : Machine σ α) (as bs : List α) (s : σ) :
    M.exec s (as ++ bs) = (M.exec s as).bind fun next => M.exec next bs := by
  induction as generalizing s with
  | nil => rfl
  | cons a as ih =>
    simp only [List.cons_append, exec]
    cases M.step s a with
    | none => rfl
    | some next => simpa using ih next

theorem exec_singleton (M : Machine σ α) (s : σ) (a : α) : M.exec s [a] = M.step s a := by
  simp [exec]

theorem Run.exec_eq {M : Machine σ α} {ok : σ → α → σ → Prop} {as : List α} {s : σ}
    (hrun : M.Run ok as s) : M.exec M.start as = some s := by
  induction hrun with
  | start => rfl
  | snoc _ _ hstep ih => rw [exec_append, ih, Option.bind_some, exec_singleton, hstep]

/-- An unrestricted run may be continued by any executable list of labels. -/
theorem Run.append_exec {M : Machine σ α} {as bs : List α} {s s' : σ}
    (hrun : M.Run Any as s) (hexec : M.exec s bs = some s') : M.Run Any (as ++ bs) s' := by
  induction bs generalizing as s with
  | nil =>
    cases hexec
    simpa using hrun
  | cons b bs ih =>
    simp only [exec, Option.bind_eq_some_iff] at hexec
    obtain ⟨next, hstep, hexec⟩ := hexec
    have hnext : M.Run Any (as ++ [b]) next := hrun.snoc trivial hstep
    simpa using ih hnext hexec

theorem run_of_exec {M : Machine σ α} {as : List α} {s : σ}
    (hexec : M.exec M.start as = some s) : M.Run Any as s := by
  simpa using (Run.start : M.Run Any [] M.start).append_exec hexec

/-- Execute labels from left to right and test the condition at each step. -/
def check (M : Machine σ α) (ok : σ → α → σ → Prop) [∀ s a s', Decidable (ok s a s')] :
    σ → List α → Option σ
  | s, [] => some s
  | s, a :: as =>
    match M.step s a with
    | none => none
    | some next => if ok s a next then M.check ok next as else none

/-- A successful test of a concrete execution is a run. -/
theorem Run.append_check {M : Machine σ α} {ok : σ → α → σ → Prop}
    [∀ s a s', Decidable (ok s a s')] {as bs : List α} {s s' : σ}
    (hrun : M.Run ok as s) (hcheck : M.check ok s bs = some s') : M.Run ok (as ++ bs) s' := by
  induction bs generalizing as s with
  | nil =>
    cases hcheck
    simpa using hrun
  | cons b bs ih =>
    simp only [check] at hcheck
    split at hcheck
    case h_1 => cases hcheck
    case h_2 next hstep =>
      split at hcheck
      case isTrue hok => simpa using ih (hrun.snoc hok hstep) hcheck
      case isFalse => cases hcheck

theorem run_of_check {M : Machine σ α} {ok : σ → α → σ → Prop}
    [∀ s a s', Decidable (ok s a s')] {as : List α} {s : σ}
    (hcheck : M.check ok M.start as = some s) : M.Run ok as s := by
  simpa using (Run.start : M.Run ok [] M.start).append_check hcheck

/-- Weakening the condition keeps every run. -/
theorem Run.mono {M : Machine σ α} {ok ok' : σ → α → σ → Prop} {as : List α} {s : σ}
    (hle : ∀ s a s', ok s a s' → ok' s a s') (hrun : M.Run ok as s) : M.Run ok' as s := by
  induction hrun with
  | start => exact .start
  | snoc _ hok hstep ih => exact ih.snoc (hle _ _ _ hok) hstep

/-- The invariant rule: what holds initially and is kept by every admissible
step holds in every state of every admissible run. -/
theorem Run.invariant {M : Machine σ α} {ok : σ → α → σ → Prop} {P : σ → Prop}
    (hstart : P M.start)
    (hkeep : ∀ s a s', P s → ok s a s' → M.step s a = some s' → P s')
    {as : List α} {s : σ} (hrun : M.Run ok as s) : P s := by
  induction hrun with
  | start => exact hstart
  | snoc _ hok hstep ih => exact hkeep _ _ _ ih hok hstep

/-- Strengthening the condition by a consequence of an invariant: an
admissible run is also a run of every condition that its steps satisfy. -/
theorem Run.strengthen {M : Machine σ α} {ok ok' : σ → α → σ → Prop} {P : σ → Prop}
    (hstart : P M.start)
    (hkeep : ∀ s a s', P s → ok' s a s' → M.step s a = some s' → P s')
    (himp : ∀ s a s', P s → ok s a s' → M.step s a = some s' → ok' s a s')
    {as : List α} {s : σ} (hrun : M.Run ok as s) : M.Run ok' as s ∧ P s := by
  induction hrun with
  | start => exact ⟨.start, hstart⟩
  | snoc _ hok hstep ih =>
    have hok' := himp _ _ _ ih.2 hok hstep
    exact ⟨ih.1.snoc hok' hstep, hkeep _ _ _ ih.2 hok' hstep⟩

/-- A property of the labels so far and the state, after each prefix of the labels. -/
def Always (M : Machine σ α) (as : List α) (P : List α → σ → Prop) : Prop :=
  ∀ bs s, bs <+: as → M.exec M.start bs = some s → P bs s

/-- A property of the labels so far, the state and the next label, at each label. -/
def Each (M : Machine σ α) (as : List α) (C : List α → σ → α → Prop) : Prop :=
  ∀ bs s a, bs ++ [a] <+: as → M.exec M.start bs = some s → C bs s a

theorem always_nil {M : Machine σ α} {P : List α → σ → Prop} : M.Always [] P ↔ P [] M.start := by
  constructor
  · exact fun h => h [] M.start (List.nil_prefix) rfl
  · intro h bs s hbs hs
    cases List.prefix_nil.mp hbs
    cases hs
    exact h

theorem each_nil {M : Machine σ α} {C : List α → σ → α → Prop} : M.Each [] C := by
  intro bs s a hbs
  simp at hbs

theorem Run.always_snoc {M : Machine σ α} {as : List α} {s s' : σ} {a : α}
    {P : List α → σ → Prop} (hrun : M.Run Any as s) (hstep : M.step s a = some s') :
    M.Always (as ++ [a]) P ↔ M.Always as P ∧ P (as ++ [a]) s' := by
  have hexec : M.exec M.start (as ++ [a]) = some s' := (hrun.snoc trivial hstep).exec_eq
  constructor
  · intro h
    exact ⟨fun bs t hbs => h bs t (hbs.trans (List.prefix_append ..)), h _ s' List.prefix_rfl hexec⟩
  · rintro ⟨hbefore, hlast⟩ bs t hbs ht
    rcases List.prefix_concat_iff.mp hbs with rfl | hbs
    · rw [hexec] at ht
      cases ht
      exact hlast
    · exact hbefore bs t hbs ht

theorem Run.each_snoc {M : Machine σ α} {as : List α} {s : σ} {a : α}
    {C : List α → σ → α → Prop} (hrun : M.Run Any as s) :
    M.Each (as ++ [a]) C ↔ M.Each as C ∧ C as s a := by
  constructor
  · intro h
    exact ⟨fun bs t b hbs => h bs t b (hbs.trans (List.prefix_append ..)),
      h as s a List.prefix_rfl hrun.exec_eq⟩
  · rintro ⟨hbefore, hlast⟩ bs t b hbs ht
    rcases List.prefix_concat_iff.mp hbs with heq | hbs
    · obtain ⟨rfl, rfl⟩ := List.append_singleton_inj.mp heq
      rw [hrun.exec_eq] at ht
      cases ht
      exact hlast
    · exact hbefore bs t b hbs ht

/-- A property holds all through a run exactly if each step meets the condition under
which that step keeps the property. -/
theorem Run.always_iff_each {M : Machine σ α} {P : List α → σ → Prop}
    {C : List α → σ → α → Prop} (hstart : P [] M.start)
    (hkeep : ∀ as s a s', M.Run Any as s → P as s → M.step s a = some s' →
      (P (as ++ [a]) s' ↔ C as s a))
    {as : List α} {s : σ} (hrun : M.Run Any as s) : M.Always as P ↔ M.Each as C := by
  induction hrun with
  | start => exact iff_of_true (always_nil.mpr hstart) each_nil
  | @snoc as s s' a hrun _ hstep ih =>
    rw [hrun.always_snoc hstep, hrun.each_snoc, ← ih]
    apply and_congr_right
    intro h
    exact hkeep as s a s' hrun (h as s List.prefix_rfl hrun.exec_eq) hstep

/-- What an invariant of the admissible steps says of every next label. -/
theorem Run.each_of_invariant {M : Machine σ α} {ok : σ → α → σ → Prop} {P : σ → Prop}
    {C : σ → α → Prop} (hstart : P M.start)
    (hkeep : ∀ s a s', P s → ok s a s' → M.step s a = some s' → P s') (himp : ∀ s a, P s → C s a)
    {as : List α} {s : σ} (hrun : M.Run ok as s) : M.Each as fun _ s a => C s a := by
  induction hrun with
  | start => exact each_nil
  | snoc hrun _ _ ih =>
    have hany := hrun.mono fun _ _ _ _ => trivial
    exact hany.each_snoc.mpr ⟨ih, himp _ _ (hrun.invariant hstart hkeep)⟩

/-- A condition on concrete labels may be tested at each of them. -/
theorem each_of_check {M : Machine σ α} {as : List α} {C : List α → σ → α → Prop}
    [∀ bs s a, Decidable (C bs s a)]
    (hcheck : ∀ k : Fin as.length,
      ((M.exec M.start (as.take k)).all fun s => C (as.take k) s as[k]) = true) :
    M.Each as C := by
  intro bs s a hbs hs
  obtain ⟨rest, rfl⟩ := hbs
  have hk : bs.length < (bs ++ [a] ++ rest).length := by simp
  have h := hcheck ⟨bs.length, hk⟩
  simp only [List.append_assoc, List.take_left', Fin.getElem_fin, hs, Option.all_some] at h
  simpa using of_decide_eq_true h

/-- The observations of an execution: each step contributes what `obs` sees in
it, silent steps contribute nothing. -/
def trace {ω : Type} (M : Machine σ α) (obs : σ → α → σ → Option ω) : σ → List α → List ω
  | _, [] => []
  | s, a :: as =>
    match M.step s a with
    | none => []
    | some next => (obs s a next).toList ++ M.trace obs next as

theorem trace_snoc {ω : Type} (M : Machine σ α) (obs : σ → α → σ → Option ω)
    {as : List α} {s middle last : σ} {a : α}
    (hexec : M.exec s as = some middle) (hstep : M.step middle a = some last) :
    M.trace obs s (as ++ [a]) = M.trace obs s as ++ (obs middle a last).toList := by
  induction as generalizing s with
  | nil =>
    cases hexec
    simp [trace, hstep]
  | cons b as ih =>
    simp only [exec, Option.bind_eq_some_iff] at hexec
    obtain ⟨next, hnext, hexec⟩ := hexec
    simp only [List.cons_append, trace, hnext, ih hexec, List.append_assoc]

/-- A forward simulation of a concrete machine by an abstract one. Each
concrete step either is silent and keeps the relation, or is matched by the
abstract step whose label `obs` computes from it. -/
structure Simulation {τ β : Type} (C : Machine σ α) (A : Machine τ β)
    (ok : σ → α → σ → Prop) (obs : σ → α → σ → Option β) (R : σ → τ → Prop) : Prop where
  start : R C.start A.start
  step : ∀ s a s' t, R s t → ok s a s' → C.step s a = some s' →
    match obs s a s' with
    | none => R s' t
    | some b => ∃ t', A.step t b = some t' ∧ R s' t'

/-- Every admissible concrete run is a run of the abstract machine under the
observed labels, and ends in related states. -/
theorem Simulation.run {τ β : Type} {C : Machine σ α} {A : Machine τ β}
    {ok : σ → α → σ → Prop} {obs : σ → α → σ → Option β} {R : σ → τ → Prop}
    (sim : Simulation C A ok obs R) {as : List α} {s : σ} (hrun : C.Run ok as s) :
    ∃ t, A.Run Any (C.trace obs C.start as) t ∧ R s t := by
  induction hrun with
  | start => exact ⟨A.start, .start, sim.start⟩
  | @snoc as s s' a hrun hok hstep ih =>
    obtain ⟨t, hA, hR⟩ := ih
    rw [trace_snoc C obs hrun.exec_eq hstep]
    have hmatch := sim.step s a s' t hR hok hstep
    cases hobs : obs s a s' with
    | none =>
      rw [hobs] at hmatch
      exact ⟨t, by simpa using hA, hmatch⟩
    | some b =>
      rw [hobs] at hmatch
      obtain ⟨t', hstep', hR'⟩ := hmatch
      exact ⟨t', hA.snoc trivial hstep', hR'⟩

end Machine

end Base
