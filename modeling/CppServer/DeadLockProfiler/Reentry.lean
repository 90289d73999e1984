import CppServer.DeadLockProfiler.Nesting

namespace CppServer.DeadLockProfiler

open Base Base.Graph Relation

variable {Name : Type}

/-- Every lock that is not held is acquired after, in the order, all locks held. -/
def OrderedBy (before : Name → Name → Prop) (calls : List (Call Name)) : Prop :=
  ∀ earlier name later, calls = earlier ++ .push name :: later →
    name ∉ stackOf earlier → ∀ x ∈ stackOf earlier, before x name

/-- Every lock that is held already is acquired again only while it is the last one
acquired of those held. -/
def ReentersTop (calls : List (Call Name)) : Prop :=
  ∀ earlier name later, calls = earlier ++ .push name :: later →
    name ∈ stackOf earlier → (stackOf earlier).head? = some name

theorem ReentersTop.above_before {before : Name → Name → Prop} {calls : List (Call Name)}
    (hreenters : ReentersTop calls) (hordered : OrderedBy before calls) {x y : Name}
    (habove : Above calls x y) : before x y := by
  obtain ⟨earlier, later, hcalls, htop, hne⟩ := habove
  apply hordered earlier y later hcalls _ x (List.mem_of_mem_head? (Option.mem_def.mpr htop))
  intro hmem
  rw [hreenters earlier y later hcalls hmem] at htop
  exact hne (Option.some.inj htop).symm

/-- Edges along a strict order close no cycle. -/
theorem acyclic_of_before {before : Name → Name → Prop} [IsStrictOrder Name before]
    {calls : List (Call Name)} (hle : ∀ x y, Above calls x y → before x y) :
    Acyclic (Above calls) := by
  intro a hcycle
  have hbefore : TransGen before a a := TransGen.mono hle a a hcycle
  rw [transGen_eq_self] at hbefore
  exact irrefl a hbefore

instance [DecidableEq Name] (before : Name → Name → Prop) [DecidableRel before]
    (calls : List (Call Name)) : Decidable (OrderedBy before calls) :=
  decidableForallCall (P := fun earlier name =>
    name ∉ stackOf earlier → ∀ x ∈ stackOf earlier, before x name) Call.pushed_eq_some calls

instance [DecidableEq Name] (calls : List (Call Name)) : Decidable (ReentersTop calls) :=
  decidableForallCall (P := fun earlier name =>
    name ∈ stackOf earlier → (stackOf earlier).head? = some name) Call.pushed_eq_some calls

/-- The locks that a thread takes in one order cause no crash exactly if the thread
enters none of them again below another lock; else the calls end in a crash. -/
theorem reentry_returns_iff [DecidableEq Name] (before : Name → Name → Prop)
    [IsStrictTotalOrder Name before] {calls : List (Call Name)} (hnested : WellNested calls)
    (hordered : OrderedBy before calls) :
    ((∃ s, Profiler.run calls = .ok s) ↔ ReentersTop calls) ∧
      ((∃ cause report, Profiler.run calls = .error (.crash cause report)) ↔ ¬ ReentersTop calls) := by
  have hiff : Acyclic (Above calls) ↔ ReentersTop calls := by
    constructor
    · rintro hacyclic earlier name later rfl hmem
      by_contra hother
      cases htop : (stackOf earlier).head? with
      | none =>
        rw [List.head?_eq_none_iff.mp htop] at hmem
        cases hmem
      | some top =>
        have hne : top ≠ name := fun heq => hother (heq ▸ htop)
        refine not_acyclic_of_push hmem htop hne (hacyclic.of_le_transGen fun x y habove => ?_)
        have hlast := habove.append later
        rw [List.append_assoc] at hlast
        exact .single hlast
    · intro hreenters
      exact acyclic_of_before fun x y => hreenters.above_before hordered
  rcases Profiler.run_ends hnested with ⟨s, hrun, hrecords⟩ | ⟨⟨cause, report, hrun⟩, hcyclic⟩
  · have hreenters := hiff.mp hrecords.acyclic_above
    refine ⟨iff_of_true ⟨s, hrun⟩ hreenters, iff_of_false ?_ (not_not.mpr hreenters)⟩
    rintro ⟨cause, report, hcrash⟩
    rw [hrun] at hcrash
    cases hcrash
  · have hnot : ¬ ReentersTop calls := fun hreenters => hcyclic (hiff.mpr hreenters)
    refine ⟨iff_of_false ?_ hnot, iff_of_true ⟨cause, report, hrun⟩ hnot⟩
    rintro ⟨s, hok⟩
    rw [hrun] at hok
    cases hok

/-- Two locks in order, and the upper one entered again on top. -/
theorem reentry_returns_iff_top :
    ∃ s, Profiler.run [.push 0, .push 1, .push 1, .pop 1, .pop 1, .pop 0] = .ok s :=
  (reentry_returns_iff (fun x y : ℕ => x < y) (by decide) (by decide)).1.mpr (by decide)

/-- Two locks in order, and the lower one entered again below the upper. -/
theorem reentry_crashes :
    WellNested [.push 0, .push 1, .push 0, .pop 0, .pop 1, .pop 0] ∧
      OrderedBy (fun x y : ℕ => x < y) [.push 0, .push 1, .push 0, .pop 0, .pop 1, .pop 0] ∧
      Profiler.run [.push 0, .push 1, .push 0, .pop 0, .pop 1, .pop 0] =
        .error (.crash .deadlockDetected [(some 1, some 0), (some 0, some 1)]) :=
  ⟨by decide, by decide, rfl⟩

end CppServer.DeadLockProfiler
