import CppServer.Base.Machine

namespace Base.Machine

variable {σ τ α β : Type}

/-- What a run of a system says about one of its parts: a view of the state that each step leaves
as it is, or changes by an admissible step of the part, runs through the part's own states. -/
theorem Run.project {C : Machine σ α} {A : Machine τ β} {okC : σ → α → σ → Prop}
    (okA : τ → β → τ → Prop) (view : σ → τ) (hstart : view C.start = A.start)
    (hstep : ∀ s a s', okC s a s' → C.step s a = some s' →
      view s' = view s ∨ ∃ b, A.step (view s) b = some (view s') ∧ okA (view s) b (view s'))
    {as : List α} {s : σ} (hrun : C.Run okC as s) : ∃ bs, A.Run okA bs (view s) := by
  induction hrun with
  | start => exact ⟨[], hstart ▸ .start⟩
  | snoc _ hok hnext ih =>
    obtain ⟨bs, hbs⟩ := ih
    rcases hstep _ _ _ hok hnext with hsame | ⟨b, hb, hokA⟩
    · exact ⟨bs, hsame ▸ hbs⟩
    · exact ⟨bs ++ [b], hbs.snoc hokA hb⟩

/-- A run whose steps only ever go up in an order stays below its last state. What a run has not
decided yet may so be named in advance by the state in which it ends. -/
theorem Run.bounded {M : Machine σ α} {ok : σ → α → σ → Prop} (le : σ → σ → Prop)
    (htrans : ∀ r s t, le r s → le s t → le r t)
    (hup : ∀ s a s', ok s a s' → M.step s a = some s' → le s s') {last : σ} {as : List α} {s : σ}
    (hrun : M.Run ok as s) (hle : le s last) :
    M.Run (fun s a s' => ok s a s' ∧ le s' last) as s := by
  induction hrun with
  | start => exact .start
  | snoc _ hok hstep ih => exact (ih (htrans _ _ _ (hup _ _ _ hok hstep) hle)).snoc ⟨hok, hle⟩ hstep

end Base.Machine
