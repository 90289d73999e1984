import CppServer.ThreadJoin.Invariant

namespace CppServer.ThreadJoin

open Base

/-- No `Launch` has returned when `Join` compares with the end of its range, and none has
moved the vector when a `join` returns. -/
def Undisturbed (as : List Act) : Act → Prop
  | .test => launchedSince as = false
  | .join => movedSince as = false
  | _ => True

instance (as : List Act) (a : Act) : Decidable (Undisturbed as a) := by
  unfold Undisturbed
  split <;> infer_instance

namespace Process

/-- Every object is joined before it is destroyed, and no range made stale by a
`push_back` has been used. -/
structure Joined (s : Process) : Prop where
  joined : ∀ t ∈ s.destroyed, t ∈ s.joined
  fresh : s.stale = false

/-- `Join` meets an outdated range exactly if something has been launched since. -/
theorem Ranging.outdated_iff {as : List Act} {s : Process} {buffer stop : ℕ}
    (hrange : Ranging as s buffer stop) : s.Outdated buffer stop ↔ launchedSince as = true := by
  obtain ⟨hbehind, hstop, hl, hm⟩ := hrange
  constructor
  · rintro (h | h)
    · exact launchedSince_of_movedSince (hm.mpr (Nat.lt_of_le_of_ne hbehind h))
    · exact hl.mpr (Nat.lt_of_le_of_ne hstop h)
  · exact fun h => .inr (hl.mp h).ne

/-- What each step adds to the destroyed objects and to the stale uses. -/
theorem joined_step_iff {as : List Act} {s s' : Process} {a : Act} (hinv : Inv as s)
    (hjoined : s.Joined) (hstep : s.step a = some s') : s'.Joined ↔ Undisturbed as a := by
  obtain ⟨-, hstep⟩ := Option.ite_none_left_eq_some.mp hstep
  cases a with
  | initTLS t =>
    obtain ⟨manager, -, rfl⟩ := Option.map_eq_some_iff.mp hstep
    exact iff_of_true ⟨hjoined.joined, hjoined.fresh⟩ trivial
  | finish t =>
    obtain ⟨manager, -, rfl⟩ := Option.map_eq_some_iff.mp hstep
    exact iff_of_true ⟨hjoined.joined, hjoined.fresh⟩ trivial
  | launch caller grown =>
    obtain ⟨-, -, -, -, -, -, -, hj, hd, hs, -⟩ := launch_spec hstep
    refine iff_of_true ⟨fun t ht => ?_, hs.trans hjoined.fresh⟩ trivial
    rw [hj]
    exact hjoined.joined t (hd ▸ ht)
  | range destructor =>
    obtain ⟨-, -, rfl⟩ := range_spec hstep
    exact iff_of_true ⟨hjoined.joined, hjoined.fresh⟩ trivial
  | test =>
    obtain ⟨buffer, i, stop, hpc, hs, hd, hj, -⟩ := test_spec hstep
    have hstands := hinv.stands
    rw [hpc] at hstands
    rw [hjoined.fresh, Bool.false_or] at hs
    have houtdated := hstands.1.outdated_iff
    constructor
    · intro h
      have hcurrent := hs.symm.trans h.fresh
      rw [decide_eq_false_iff_not, houtdated] at hcurrent
      exact Bool.eq_false_iff.mpr hcurrent
    · intro h
      refine ⟨fun t ht => ?_, ?_⟩
      · rw [hj]
        exact hjoined.joined t (hd ▸ ht)
      · rw [hs, decide_eq_false_iff_not, houtdated]
        exact Bool.eq_false_iff.mp h
  | join =>
    obtain ⟨buffer, i, stop, t, lThreadId, hpc, -, -, heq⟩ := join_spec hstep
    have hstands := hinv.stands
    rw [hpc] at hstands
    have hmoved := hstands.1.moved
    split at heq
    case isTrue hne =>
      refine iff_of_false (fun h => ?_) (fun h => ?_)
      · have hfresh := h.fresh
        rw [heq] at hfresh
        cases hfresh
      · have hlt := Nat.lt_of_le_of_ne hstands.1.behind hne
        exact Bool.false_ne_true (h.symm.trans (hmoved.mpr hlt))
    case isFalse hkept =>
      subst heq
      refine iff_of_true ⟨fun u hu => List.mem_append_left _ (hjoined.joined u hu), hjoined.fresh⟩ ?_
      exact Bool.eq_false_iff.mpr fun h => hkept (hmoved.mp h).ne
  | clear =>
    obtain ⟨stop, hpc, rfl⟩ := clear_spec hstep
    refine iff_of_true ⟨fun t ht => ?_, hjoined.fresh⟩ trivial
    rcases List.mem_append.mp ht with h | h
    · exact hjoined.joined t h
    · obtain ⟨handle, hmem, rfl⟩ := List.mem_map.mp h
      exact hinv.all_joined (hinv.length_le_clear hpc) handle hmem
  | destroy =>
    obtain ⟨hpc, hlife, rfl⟩ := destroy_spec hstep
    refine iff_of_true ⟨fun t ht => ?_, hjoined.fresh⟩ trivial
    rcases List.mem_append.mp ht with h | h
    · exact hjoined.joined t h
    · obtain ⟨handle, hmem, rfl⟩ := List.mem_map.mp h
      exact hinv.all_joined (hinv.length_le_ending hpc hlife) handle hmem

/-- In a run of launches and of `Join`, every thread object is joined before it is destroyed
and no stale range is used, exactly if at each comparison with the end of a range nothing has
been launched since `Join` took it, and at each return of a `join` the vector has not moved
since. -/
theorem joined_iff {as : List Act} {s : Process} (hrun : machine.Run Machine.Any as s) :
    (machine.Always as fun _ s => s.Joined) ↔ machine.Each as fun as _ a => Undisturbed as a := by
  apply hrun.always_iff_each
  · exact ⟨fun t ht => by simp [machine] at ht, rfl⟩
  · intro as s a s' hrun hjoined hstep
    exact joined_step_iff (inv_run hrun hjoined.fresh) hjoined hstep

/-- Two threads, one of them launched by the other; a `Join` that finds both, and the
destructor with a third. -/
def orderly : List Act :=
  [.initTLS 0, .launch 0 (some 1), .initTLS 1, .launch 1 (some 2), .initTLS 2, .range false,
    .test, .finish 1, .join, .test, .finish 2, .join, .test, .clear, .launch 0 none, .range true,
    .initTLS 3, .test, .finish 3, .join, .test, .clear, .destroy]

theorem joined_iff_orderly :
    ∃ s, machine.Run Machine.Any orderly s ∧ s.life = .ended ∧
      (machine.Always orderly fun _ s => s.Joined) ∧ s.destroyed = [1, 2, 3] := by
  have hexec : ((machine.exec machine.start orderly).any fun s =>
      s.life = .ended ∧ s.destroyed = [1, 2, 3]) = true := by
    decide
  obtain ⟨s, hs, h⟩ := (Option.any_eq_true ..).mp hexec
  obtain ⟨hlife, hdestroyed⟩ := of_decide_eq_true h
  have hrun := Machine.run_of_exec hs
  exact ⟨s, hrun, hlife, (joined_iff hrun).mpr (Machine.each_of_check (by decide)), hdestroyed⟩

/-- While the main thread stands in `Join`, only callbacks can have launched. -/
theorem launchedSince_of_step {as : List Act} {s s' : Process} {a : Act}
    (hbefore : s.pc ≠ .idle → launchedSince as = false) (hstep : s.step a = some s')
    (hmain : ∀ caller grown, a = .launch caller grown → caller = 0) (hpc : s'.pc ≠ .idle) :
    launchedSince (as ++ [a]) = false := by
  obtain ⟨-, hstep⟩ := Option.ite_none_left_eq_some.mp hstep
  rw [launchedSince_snoc]
  cases a with
  | initTLS t =>
    obtain ⟨manager, -, rfl⟩ := Option.map_eq_some_iff.mp hstep
    exact hbefore hpc
  | finish t =>
    obtain ⟨manager, -, rfl⟩ := Option.map_eq_some_iff.mp hstep
    exact hbefore hpc
  | launch caller grown =>
    obtain ⟨hfree, -, -, -, -, hkept, -⟩ := launch_spec hstep
    exact absurd ⟨hmain caller grown rfl, .inl (hkept ▸ hpc)⟩ hfree
  | range destructor => rfl
  | test =>
    obtain ⟨buffer, i, stop, hat, -⟩ := test_spec hstep
    exact hbefore (by simp [hat])
  | join =>
    obtain ⟨buffer, i, stop, t, lThreadId, hat, -⟩ := join_spec hstep
    exact hbefore (by simp [hat])
  | clear =>
    obtain ⟨stop, hat, -⟩ := clear_spec hstep
    exact hbefore (by simp [hat])
  | destroy =>
    obtain ⟨hat, -, rfl⟩ := destroy_spec hstep
    exact absurd hat hpc

/-- A server whose threads are all launched by the main thread abandons none of them. -/
theorem joined_of_main_launches {as : List Act} {s : Process}
    (hrun : machine.Run (fun _ a _ => ∀ caller grown, a = .launch caller grown → caller = 0) as s) :
    s.Joined := by
  suffices h : s.Joined ∧ (s.pc ≠ .idle → launchedSince as = false) from h.1
  induction hrun with
  | start => exact ⟨⟨fun t ht => by simp [machine] at ht, rfl⟩, fun _ => rfl⟩
  | @snoc as s s' a hrun hmain hstep ih =>
    obtain ⟨hjoined, hquiet⟩ := ih
    have hinv := inv_run (hrun.mono fun _ _ _ _ => trivial) hjoined.fresh
    refine ⟨(joined_step_iff hinv hjoined hstep).mpr ?_, launchedSince_of_step hquiet hstep hmain⟩
    obtain ⟨-, hstep⟩ := Option.ite_none_left_eq_some.mp hstep
    cases a with
    | test =>
      obtain ⟨buffer, i, stop, hpc, -⟩ := test_spec hstep
      exact hquiet (by simp [hpc])
    | join =>
      obtain ⟨buffer, i, stop, t, lThreadId, hpc, -⟩ := join_spec hstep
      have hlaunched := hquiet (by simp [hpc])
      exact Bool.eq_false_iff.mpr fun h =>
        Bool.false_ne_true (hlaunched.symm.trans (launchedSince_of_movedSince h))
    | initTLS t => trivial
    | finish t => trivial
    | launch caller grown => trivial
    | range destructor => trivial
    | clear => trivial
    | destroy => trivial

/-- A callback launches while `Join` waits for its thread. Without growth `Join` passes the
new thread by and destroys its object joinable; with growth the end of `join` writes to the
freed buffer. -/
theorem launched_while_joining :
    (∃ s, machine.exec machine.start
        [.initTLS 0, .launch 0 (some 1), .launch 0 (some 2), .initTLS 1, .finish 1, .initTLS 2,
          .finish 2, .range false, .test, .join, .test, .join, .test, .clear, .launch 0 none,
          .initTLS 3, .range false, .test, .launch 3 none, .finish 3, .join, .test, .clear] =
        some s ∧ 4 ∈ s.destroyed ∧ 4 ∉ s.joined ∧ s.halted = true ∧ ¬ s.Joined) ∧
      ∃ s, machine.exec machine.start
        [.initTLS 0, .launch 0 (some 1), .initTLS 1, .range false, .test, .launch 1 (some 2),
          .finish 1, .join] = some s ∧ s.stale = true ∧ ¬ s.Joined := by
  constructor
  · have hexec : ((machine.exec machine.start
        [.initTLS 0, .launch 0 (some 1), .launch 0 (some 2), .initTLS 1, .finish 1, .initTLS 2,
          .finish 2, .range false, .test, .join, .test, .join, .test, .clear, .launch 0 none,
          .initTLS 3, .range false, .test, .launch 3 none, .finish 3, .join, .test, .clear]).any
        fun s => 4 ∈ s.destroyed ∧ 4 ∉ s.joined ∧ s.halted = true) = true := by
      decide
    obtain ⟨s, hs, h⟩ := (Option.any_eq_true ..).mp hexec
    obtain ⟨hdestroyed, hjoined, hhalted⟩ := of_decide_eq_true h
    exact ⟨s, hs, hdestroyed, hjoined, hhalted, fun h => hjoined (h.joined 4 hdestroyed)⟩
  · have hexec : ((machine.exec machine.start
        [.initTLS 0, .launch 0 (some 1), .initTLS 1, .range false, .test, .launch 1 (some 2),
          .finish 1, .join]).any fun s => s.stale = true) = true := by
      decide
    obtain ⟨s, hs, h⟩ := (Option.any_eq_true ..).mp hexec
    have hstale := of_decide_eq_true h
    refine ⟨s, hs, hstale, fun h => ?_⟩
    rw [h.fresh] at hstale
    cases hstale

end Process

end CppServer.ThreadJoin
