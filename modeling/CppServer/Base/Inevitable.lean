import CppServer.Base.Machine

namespace Base

namespace Machine

variable {σ α κ : Type}

/-- What others may do between two steps of one party: labels that are theirs, to a state in
which the machine still works. -/
def Between (M : Machine σ α) (others : α → Prop) (live : σ → Prop) (s s' : σ) : Prop :=
  ∃ as, (∀ a ∈ as, others a) ∧ M.exec s as = some s' ∧ live s'

/-- A party that goes on taking its own steps comes to a state that is `done`, whatever others do
in between, and the machine works until then. `own k s a k'` says which labels are the party's in
the state `s`, and how what it is given next, `k`, goes on. -/
inductive Inevitable (M : Machine σ α) (others : α → Prop) (live : σ → Prop)
    (own : κ → σ → α → κ → Prop) (done : σ → Prop) : κ → σ → Prop
  | done {k : κ} {s : σ} (hdone : done s) : Inevitable M others live own done k s
  | turn {k : κ} {s : σ}
      (henabled : ∀ s', M.Between others live s s' →
        ∃ a k' t, own k s' a k' ∧ M.step s' a = some t)
      (hlive : ∀ s', M.Between others live s s' → ∀ a k' t, own k s' a k' → M.step s' a = some t →
        live t)
      (hturn : ∀ s', M.Between others live s s' → ∀ a k' t, own k s' a k' → M.step s' a = some t →
        Inevitable M others live own done k' t) :
      Inevitable M others live own done k s

variable {M : Machine σ α} {others : α → Prop} {live : σ → Prop} {own : κ → σ → α → κ → Prop}
  {done : σ → Prop}

theorem Between.refl {s : σ} (hlive : live s) : M.Between others live s s :=
  ⟨[], fun _ ha => absurd ha (List.not_mem_nil), rfl, hlive⟩

theorem Between.reachable {as : List α} {s s' : σ} (hbetween : M.Between others live s s')
    (hrun : M.Run Any as s) : ∃ as', M.Run Any as' s' := by
  obtain ⟨bs, -, hexec, -⟩ := hbetween
  exact ⟨as ++ bs, hrun.append_exec hexec⟩

/-- A property that the steps of others keep holds when the party takes its turn. -/
theorem Between.keep {P : σ → Prop}
    (hkeep : ∀ s a s', others a → P s → M.step s a = some s' → P s') {s s' : σ}
    (hbetween : M.Between others live s s') (hs : P s) : P s' := by
  obtain ⟨as, hothers, hexec, -⟩ := hbetween
  induction as generalizing s with
  | nil =>
    cases hexec
    exact hs
  | cons a as ih =>
    obtain ⟨middle, hstep, hexec⟩ := Option.bind_eq_some_iff.mp hexec
    have hmiddle := hkeep s a middle (hothers a List.mem_cons_self) hs hstep
    exact ih hmiddle (fun b hb => hothers b (List.mem_cons_of_mem _ hb)) hexec

/-- The liveness rule: each own step keeps an invariant and decreases a measure, and the steps of
others keep the one and leave the other alone. -/
theorem Inevitable.of_measure {I : κ → σ → Prop} {μ : κ → σ → ℕ}
    (hothers : ∀ k s s', I k s → M.Between others live s s' →
      I k s' ∧ μ k s' = μ k s ∧ (done s' → done s))
    (henabled : ∀ k s, I k s → ¬ done s → ∃ a k' t, own k s a k' ∧ M.step s a = some t)
    (hown : ∀ k s a k' t, I k s → ¬ done s → own k s a k' → M.step s a = some t →
      live t ∧ I k' t ∧ μ k' t < μ k s)
    {k : κ} {s : σ} (hs : I k s) : Inevitable M others live own done k s := by
  induction hn : μ k s using Nat.strongRecOn generalizing k s with
  | ind n ih =>
    by_cases hend : done s
    · exact .done hend
    · refine .turn (fun s' hbetween => ?_) (fun s' hbetween a k' t ha hstep => ?_)
        fun s' hbetween a k' t ha hstep => ?_
      all_goals
        obtain ⟨hs', hμ, hdone⟩ := hothers k s s' hs hbetween
        have hend' : ¬ done s' := fun h => hend (hdone h)
      · exact henabled k s' hs' hend'
      · exact (hown k s' a k' t hs' hend' ha hstep).1
      · obtain ⟨-, ht, hlt⟩ := hown k s' a k' t hs' hend' ha hstep
        exact ih _ (by omega) ht rfl

/-- The rule for the converse: what the own steps keep as long as the machine works, and what
excludes the end, is never left. -/
theorem Inevitable.not_doomed {D : κ → σ → Prop} (hlive : ∀ k s, D k s → live s)
    (hdone : ∀ k s, D k s → ¬ done s)
    (hown : ∀ k s a k' t, D k s → own k s a k' → M.step s a = some t → live t → D k' t)
    {k : κ} {s : σ} (h : Inevitable M others live own done k s) : ¬ D k s := by
  induction h with
  | done hend => exact fun hs => hdone _ _ hs hend
  | @turn k s henabled hworks _ ih =>
    intro hs
    have hhere : M.Between others live s s := .refl (hlive _ _ hs)
    obtain ⟨a, k', t, ha, hstep⟩ := henabled _ hhere
    exact ih _ hhere a k' t ha hstep (hown _ _ a k' t hs ha hstep (hworks _ hhere a k' t ha hstep))

end Machine

end Base
