import CppServer.Base.Progress
import CppServer.ThreadJoin.Ended
import CppServer.ThreadJoin.Joined

namespace CppServer.ThreadJoin

open Base

namespace Process

variable {as : List Act} {s s' : Process}

/-- An object that is still joinable lies behind the range. -/
def Left (s : Process) (stop : ℕ) : Prop :=
  ∃ k t, stop ≤ k ∧ s.threads[k]? = some t ∧ t.joinable = true

/-- A `Join` that passes a joinable object by. -/
def Doomed (s : Process) : Prop :=
  match s.pc with
  | .idle => False
  | .loop _ i stop => i ≤ stop ∧ s.Left stop
  | .joining _ i stop => i < stop ∧ s.Left stop
  | .clear stop => s.Left stop

theorem Left.congr {stop : ℕ} (hleft : s.Left stop) (hthreads : s'.threads = s.threads) :
    s'.Left stop := by
  rw [Left, hthreads]
  exact hleft

theorem Left.append {stop : ℕ} (hleft : s.Left stop) {t : Handle}
    (hthreads : s'.threads = s.threads ++ [t]) : s'.Left stop := by
  obtain ⟨k, u, hk, hu, hjoinable⟩ := hleft
  refine ⟨k, u, hk, ?_, hjoinable⟩
  rw [hthreads, List.getElem?_append_left (List.getElem?_eq_some_iff.mp hu).1, hu]

theorem left_of_append {stop : ℕ} {t : Handle} (hthreads : s'.threads = s.threads ++ [t])
    (hstop : stop ≤ s.threads.length) (hjoinable : t.joinable = true) : s'.Left stop :=
  ⟨s.threads.length, t, hstop, by simp [hthreads], hjoinable⟩

theorem Doomed.not_idle (hdoomed : s.Doomed) : s.pc ≠ .idle := by
  intro hidle
  rw [Doomed, hidle] at hdoomed
  exact hdoomed

theorem Doomed.congr (hdoomed : s.Doomed) (hpc : s'.pc = s.pc)
    (hleft : ∀ stop, s.Left stop → s'.Left stop) : s'.Doomed := by
  rw [Doomed, hpc]
  rw [Doomed] at hdoomed
  cases hat : s.pc with
  | idle =>
    rw [hat] at hdoomed
    exact hdoomed
  | loop buffer i stop =>
    rw [hat] at hdoomed
    exact ⟨hdoomed.1, hleft stop hdoomed.2⟩
  | joining buffer i stop =>
    rw [hat] at hdoomed
    exact ⟨hdoomed.1, hleft stop hdoomed.2⟩
  | clear stop =>
    rw [hat] at hdoomed
    exact hleft stop hdoomed

/-- Where the test leads to, if the process goes on. -/
theorem test_going (hstep : s.test = some s') (hgoing : s'.halted = false) :
    ∃ buffer i stop, s.pc = .loop buffer i stop ∧ s'.threads = s.threads ∧
      ((i = stop ∧ s'.pc = .clear stop) ∨
        (i ≠ stop ∧ (s'.pc = .joining buffer i stop ∨ s'.pc = .loop buffer (i + 1) stop))) := by
  unfold test at hstep
  split at hstep
  case h_2 => cases hstep
  case h_1 buffer i stop hpc =>
    refine ⟨buffer, i, stop, hpc, ?_⟩
    split at hstep
    case isTrue =>
      cases hstep
      cases hgoing
    case isFalse =>
      split at hstep
      case isTrue hend =>
        cases hstep
        exact ⟨rfl, .inl ⟨hend, rfl⟩⟩
      case isFalse hmore =>
        obtain ⟨t, -, rfl⟩ := Option.map_eq_some_iff.mp hstep
        refine ⟨rfl, .inr ⟨hmore, ?_⟩⟩
        cases t.joinable with
        | true => exact .inl rfl
        | false => exact .inr rfl

/-- Nothing brings the object back into the range, so that it is destroyed joinable. -/
theorem Doomed.step (hdoomed : s.Doomed) {a : Act} (hstep : s.step a = some s')
    (hgoing : s'.halted = false) : s'.Doomed := by
  obtain ⟨-, hstep⟩ := Option.ite_none_left_eq_some.mp hstep
  cases a with
  | initTLS t =>
    obtain ⟨manager, -, rfl⟩ := Option.map_eq_some_iff.mp hstep
    exact hdoomed.congr rfl fun _ h => h.congr rfl
  | finish t =>
    obtain ⟨manager, -, rfl⟩ := Option.map_eq_some_iff.mp hstep
    exact hdoomed.congr rfl fun _ h => h.congr rfl
  | launch caller grown =>
    obtain ⟨-, -, hthreads, -, -, hpc, -⟩ := launch_spec hstep
    exact hdoomed.congr hpc fun _ h => h.append hthreads
  | range destructor => exact absurd (range_spec hstep).1 hdoomed.not_idle
  | test =>
    obtain ⟨buffer, i, stop, hpc, hthreads, hnext⟩ := test_going hstep hgoing
    rw [Doomed, hpc] at hdoomed
    obtain ⟨hi, hleft⟩ := hdoomed
    have hleft' := hleft.congr hthreads
    rcases hnext with ⟨-, hclear⟩ | ⟨hmore, hjoining | hloop⟩
    · rw [Doomed, hclear]
      exact hleft'
    · rw [Doomed, hjoining]
      exact ⟨Nat.lt_of_le_of_ne hi hmore, hleft'⟩
    · rw [Doomed, hloop]
      exact ⟨Nat.lt_of_le_of_ne hi hmore, hleft'⟩
  | join =>
    obtain ⟨buffer, i, stop, t, lThreadId, hpc, ht, -, rfl⟩ := join_spec hstep
    rw [Doomed, hpc] at hdoomed
    obtain ⟨hi, k, u, hk, hu, hjoinable⟩ := hdoomed
    split at hgoing
    case isTrue => cases hgoing
    case isFalse hkept =>
      rw [if_neg hkept]
      refine ⟨hi, k, u, hk, ?_, hjoinable⟩
      change (s.threads.set i _)[k]? = some u
      rw [List.getElem?_set_ne (by omega), hu]
  | clear =>
    obtain ⟨stop, hpc, rfl⟩ := clear_spec hstep
    rw [Doomed, hpc] at hdoomed
    obtain ⟨k, u, -, hu, hjoinable⟩ := hdoomed
    have hany : s.threads.any Handle.joinable = true :=
      List.any_eq_true.mpr ⟨u, List.mem_of_getElem? hu, hjoinable⟩
    exact absurd (hgoing.symm.trans hany) Bool.false_ne_true
  | destroy => exact absurd (destroy_spec hstep).1 hdoomed.not_idle

/-- In a process that goes on, a `Join` has an up-to-date range, or it is doomed since something was
launched. -/
def Standing (as : List Act) (s : Process) : Prop :=
  (s.stale = false ∧ (s.pc ≠ .idle → launchedSince as = false)) ∨
    (launchedSince as = true ∧ s.Doomed)

/-- A launch dooms the `Join` under way. -/
theorem Inv.doomed_of_launch (hinv : Inv as s) {caller : ℕ} {grown : Option ℕ}
    (hstep : s.launch caller grown = some s') (hpc : s.pc ≠ .idle) : s'.Doomed := by
  obtain ⟨-, -, hthreads, -, -, hsame, -⟩ := launch_spec hstep
  have hstands := hinv.stands
  rw [Doomed, hsame]
  cases hat : s.pc with
  | idle => exact absurd hat hpc
  | loop buffer i stop =>
    rw [hat] at hstands
    exact ⟨hstands.2, left_of_append hthreads hstands.1.length rfl⟩
  | joining buffer i stop =>
    rw [hat] at hstands
    exact ⟨hstands.2, left_of_append hthreads hstands.1.length rfl⟩
  | clear stop =>
    rw [hat] at hstands
    exact left_of_append hthreads hstands.ge rfl

theorem Standing.step (hstanding : Standing as s) (hrun : machine.Run Machine.Any as s) {a : Act}
    (hstep : s.step a = some s') (hgoing : s'.halted = false) : Standing (as ++ [a]) s' := by
  rcases hstanding with ⟨hfresh, hquiet⟩ | ⟨hlaunched, hdoomed⟩
  · have hinv := inv_run hrun hfresh
    obtain ⟨-, hstep⟩ := Option.ite_none_left_eq_some.mp hstep
    cases a with
    | initTLS t =>
      obtain ⟨manager, -, rfl⟩ := Option.map_eq_some_iff.mp hstep
      exact .inl ⟨hfresh, fun hpc => (launchedSince_snoc ..).trans (hquiet hpc)⟩
    | finish t =>
      obtain ⟨manager, -, rfl⟩ := Option.map_eq_some_iff.mp hstep
      exact .inl ⟨hfresh, fun hpc => (launchedSince_snoc ..).trans (hquiet hpc)⟩
    | launch caller grown =>
      obtain ⟨-, -, -, -, -, hsame, -, -, -, hs, -⟩ := launch_spec hstep
      by_cases hpc : s.pc = .idle
      · exact .inl ⟨hs.trans hfresh, fun h => absurd (hsame.trans hpc) h⟩
      · exact .inr ⟨launchedSince_snoc .., hinv.doomed_of_launch hstep hpc⟩
    | range destructor =>
      obtain ⟨-, -, rfl⟩ := range_spec hstep
      exact .inl ⟨hfresh, fun _ => launchedSince_snoc ..⟩
    | test =>
      obtain ⟨buffer, i, stop, hpc, hs, -⟩ := test_spec hstep
      have hlaunched := hquiet (by simp [hpc])
      have hstands := hinv.stands
      rw [hpc] at hstands
      have hcurrent : ¬ s.Outdated buffer stop := fun h =>
        Bool.false_ne_true (hlaunched.symm.trans (hstands.1.outdated_iff.mp h))
      refine .inl ⟨?_, fun _ => (launchedSince_snoc ..).trans hlaunched⟩
      rw [hs, hfresh, decide_eq_false hcurrent, Bool.or_false]
    | join =>
      obtain ⟨buffer, i, stop, t, lThreadId, hpc, -, -, rfl⟩ := join_spec hstep
      have hlaunched := hquiet (by simp [hpc])
      split at hgoing
      case isTrue => cases hgoing
      case isFalse hkept =>
        rw [if_neg hkept]
        exact .inl ⟨hfresh, fun _ => (launchedSince_snoc ..).trans hlaunched⟩
    | clear =>
      obtain ⟨stop, -, rfl⟩ := clear_spec hstep
      exact .inl ⟨hfresh, fun h => absurd rfl h⟩
    | destroy =>
      obtain ⟨hpc, -, rfl⟩ := destroy_spec hstep
      exact .inl ⟨hfresh, fun h => absurd hpc h⟩
  · refine .inr ⟨?_, hdoomed.step hstep hgoing⟩
    obtain ⟨-, hstep⟩ := Option.ite_none_left_eq_some.mp hstep
    rw [launchedSince_snoc]
    cases a with
    | range destructor => exact absurd (range_spec hstep).1 hdoomed.not_idle
    | launch caller grown => rfl
    | initTLS t => exact hlaunched
    | finish t => exact hlaunched
    | test => exact hlaunched
    | join => exact hlaunched
    | clear => exact hlaunched
    | destroy => exact hlaunched

/-- The vector holds the threads that were launched. -/
def Listed (s : Process) : Prop :=
  ∀ t ∈ s.threads, 0 < t.thread ∧ t.thread < s.manager.threads.length

theorem Listed.step (hlisted : s.Listed) {a : Act} (hstep : s.step a = some s') : s'.Listed := by
  obtain ⟨-, hstep⟩ := Option.ite_none_left_eq_some.mp hstep
  cases a with
  | initTLS u =>
    obtain ⟨manager, hmanager, rfl⟩ := Option.map_eq_some_iff.mp hstep
    intro t ht
    rw [ThreadManager.length_of_step hmanager nofun]
    exact hlisted t ht
  | finish u =>
    obtain ⟨manager, hmanager, rfl⟩ := Option.map_eq_some_iff.mp hstep
    intro t ht
    rw [ThreadManager.length_of_step hmanager nofun]
    exact hlisted t ht
  | launch caller grown =>
    obtain ⟨-, ⟨lThreadId, hrunning⟩, hthreads, -, hmanager, -⟩ := launch_spec hstep
    have hcaller := (List.getElem?_eq_some_iff.mp hrunning).1
    intro t ht
    rw [hmanager, List.length_append, List.length_singleton]
    rw [hthreads, List.mem_append, List.mem_singleton] at ht
    rcases ht with hold | rfl
    · obtain ⟨hpos, hlt⟩ := hlisted t hold
      omega
    · exact ⟨Nat.zero_lt_of_lt hcaller, Nat.lt_succ_self _⟩
  | range destructor =>
    obtain ⟨-, -, rfl⟩ := range_spec hstep
    exact hlisted
  | test =>
    obtain ⟨-, hmanager, hthreads, -⟩ := test_unchanged hstep
    rw [Listed, hmanager, hthreads]
    exact hlisted
  | join =>
    obtain ⟨buffer, i, stop, t, lThreadId, -, ht, -, rfl⟩ := join_spec hstep
    split
    case isTrue => exact hlisted
    case isFalse =>
      intro u hu
      rcases List.mem_or_eq_of_mem_set hu with hold | rfl
      · exact hlisted u hold
      · exact hlisted t (List.mem_of_getElem? ht)
  | clear =>
    obtain ⟨stop, -, rfl⟩ := clear_spec hstep
    exact fun t ht => by cases ht
  | destroy =>
    obtain ⟨-, -, rfl⟩ := destroy_spec hstep
    exact fun t ht => by cases ht

/-- What a thread has before it until its end. -/
def ahead : Option Phase → ℕ
  | some .starting => 2
  | some (.running _) => 1
  | _ => 0

/-- The steps that `Join` and the threads that it waits for have to take. -/
def remaining (s : Process) : ℕ :=
  match s.pc with
  | .idle => 0
  | .loop _ i stop => 5 * (stop - i) + 2
  | .joining _ i stop =>
    5 * (stop - i) - 1 + ahead (s.threads[i]?.bind fun t => s.manager.threads[t.thread]?)
  | .clear _ => 1

section Nearer

variable {buffer i stop : ℕ}

end Nearer

theorem listed_run (hrun : machine.Run Machine.Any as s) : s.Listed :=
  hrun.invariant (fun _ ht => by cases ht) fun _ _ _ h _ hstep => h.step hstep

end Process

end CppServer.ThreadJoin
