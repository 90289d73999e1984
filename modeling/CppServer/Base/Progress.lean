import CppServer.Base.Counting
import CppServer.Base.Machine

namespace Base

namespace Machine

variable {σ α : Type} {M : Machine σ α}

/-- The rule for what never ends: a property that every admissible step keeps holds from the
state that a run passes on to its last. -/
theorem Run.stable {ok : σ → α → σ → Prop} {P : σ → Prop}
    (hkeep : ∀ as s a s', M.Run ok as s → P s → ok s a s' → M.step s a = some s' → P s')
    {as bs : List α} {s s' : σ} (hrun : M.Run ok (as ++ bs) s')
    (hexec : M.exec M.start as = some s) (hs : P s) : P s' := by
  induction bs using List.reverseRecOn generalizing s' with
  | nil =>
    have hend := hrun.exec_eq
    rw [List.append_nil, hexec] at hend
    cases hend
    exact hs
  | append_singleton bs b ih =>
    generalize hlabels : as ++ (bs ++ [b]) = labels at hrun
    cases hrun with
    | start => simp at hlabels
    | @snoc cs t _ c hrun hok hstep =>
      rw [← List.append_assoc] at hlabels
      obtain ⟨rfl, rfl⟩ := List.append_singleton_inj.mp hlabels
      exact hkeep _ _ _ _ hrun (ih hrun) hok hstep

/-- The rule for what is always possible: while some admissible labels lead on to a state of
smaller measure, some admissible labels lead to a state of measure zero. -/
theorem exists_exec_of_measure (I : σ → Prop) (ok : α → Prop) (μ : σ → ℕ)
    (hnext : ∀ s, I s → μ s ≠ 0 →
      ∃ as s', M.exec s as = some s' ∧ (∀ a ∈ as, ok a) ∧ I s' ∧ μ s' < μ s)
    {s : σ} (hs : I s) :
    ∃ as s', M.exec s as = some s' ∧ (∀ a ∈ as, ok a) ∧ I s' ∧ μ s' = 0 := by
  induction hn : μ s using Nat.strongRecOn generalizing s with
  | ind n ih =>
    by_cases hzero : μ s = 0
    · exact ⟨[], s, rfl, fun a ha => absurd ha List.not_mem_nil, hs, hzero⟩
    · obtain ⟨as, middle, hexec, has, hmiddle, hlt⟩ := hnext s hs hzero
      obtain ⟨bs, last, hlast, hbs, hend⟩ := ih _ (hn ▸ hlt) hmiddle rfl
      refine ⟨as ++ bs, last, by rw [exec_append, hexec, Option.bind_some, hlast], fun a ha => ?_, hend⟩
      exact (List.mem_append.mp ha).elim (has a) (hbs a)

/-- What an execution costs in all. -/
def total (M : Machine σ α) (cost : σ → α → σ → ℕ) : σ → List α → ℕ
  | _, [] => 0
  | s, a :: as =>
    match M.step s a with
    | none => 0
    | some next => cost s a next + M.total cost next as

/-- A cost that depends on the labels only. -/
theorem total_eq_sum {cost : α → ℕ} {as : List α} {s s' : σ} (hexec : M.exec s as = some s') :
    M.total (fun _ a _ => cost a) s as = (as.map cost).sum := by
  induction as generalizing s with
  | nil => rfl
  | cons a as ih =>
    obtain ⟨next, hstep, hrest⟩ := Option.bind_eq_some_iff.mp hexec
    simp only [total, hstep, List.map_cons, List.sum_cons, ih hrest]

/-- The rule of amortised cost: what the steps do is paid for by what they are credited and by the
potential that is there at the beginning. -/
theorem total_le_of_potential {work credit : σ → α → σ → ℕ} {potential : σ → ℕ}
    (hpay : ∀ s a s', M.step s a = some s' →
      work s a s' + potential s' ≤ potential s + credit s a s')
    {as : List α} {s s' : σ} (hexec : M.exec s as = some s') :
    M.total work s as + potential s' ≤ potential s + M.total credit s as := by
  induction as generalizing s with
  | nil =>
    cases hexec
    simp [total]
  | cons a as ih =>
    obtain ⟨next, hstep, hrest⟩ := Option.bind_eq_some_iff.mp hexec
    have hfirst := hpay s a next hstep
    have hlater := ih hrest
    simp only [total, hstep]
    omega

end Machine

namespace Counting

open Finset

variable {ι : Type} [Fintype ι] [DecidableEq ι]

/-- One index changes as it likes and each other one grows by a constant at most. -/
theorem total_le_of_others {weight weight' : ι → ℕ} {i : ι} {c : ℕ}
    (hothers : ∀ j, j ≠ i → weight' j ≤ weight j + c) :
    ∑ j, weight' j + weight i ≤ ∑ j, weight j + weight' i + c * (Fintype.card ι - 1) := by
  have hrest : ∑ j ∈ univ.erase i, weight' j ≤
      ∑ j ∈ univ.erase i, weight j + c * (Fintype.card ι - 1) := by
    calc
      ∑ j ∈ univ.erase i, weight' j ≤ ∑ j ∈ univ.erase i, (weight j + c) :=
        sum_le_sum fun j hj => hothers j (ne_of_mem_erase hj)
      _ = ∑ j ∈ univ.erase i, weight j + c * (Fintype.card ι - 1) := by
        rw [sum_add_distrib, sum_const, smul_eq_mul, card_erase_of_mem (mem_univ i), card_univ,
          mul_comm]
  have hafter := add_sum_erase univ weight' (mem_univ i)
  have hbefore := add_sum_erase univ weight (mem_univ i)
  omega

end Counting

end Base
