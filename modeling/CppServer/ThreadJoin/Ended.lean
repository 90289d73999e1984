import CppServer.ThreadJoin.Steps

namespace CppServer.ThreadJoin

open Base

/-- The thread whose code the step is of, as far as it returns from a callback, launches, or
enters `Join`. -/
def Act.caller : Act → Option ℕ
  | .finish t => some t
  | .launch caller _ => some caller
  | .range _ => some 0
  | _ => none

namespace Process

variable {s s' : Process}

/-- A thread is in its callback, or in `main` and neither in `Join` nor in the destructor. -/
def Acts (s : Process) (t : ℕ) : Prop :=
  (s.manager.threads[t]?.any fun phase => phase matches .running _) ∧ ¬ (t = 0 ∧ s.Busy)

instance (s : Process) (t : ℕ) : Decidable (s.Acts t) := inferInstanceAs (Decidable (_ ∧ _))

/-- Whatever is launched and whenever: no thread is lost out of sight that is not joined. -/
structure Kept (s : Process) : Prop where
  known : ∀ t, 0 < t → t < s.manager.threads.length →
    t ∈ s.joined ∨ ∃ handle ∈ s.threads, handle.thread = t
  joined : ∀ handle ∈ s.threads, handle.joinable = false → handle.thread ∈ s.joined
  finished : ∀ t ∈ s.joined, ∃ lThreadId, s.manager.threads[t]? = some (.finished lThreadId)
  emptied : s.life = .ended → s.threads = []
  idle : s.life = .ended → s.pc = .idle

theorem kept_start : Kept machine.start := by
  refine ⟨fun t hpos ht => ?_, fun handle hmem => ?_, fun t ht => ?_, nofun, nofun⟩
  · simp [machine] at ht
    omega
  · cases hmem
  · cases ht

/-- What the test leaves as it is, whether its range is outdated or not. -/
theorem test_unchanged (hstep : s.test = some s') :
    s.pc ≠ .idle ∧ s'.manager = s.manager ∧ s'.threads = s.threads ∧ s'.joined = s.joined ∧
      s'.life = s.life := by
  unfold test at hstep
  split at hstep
  case h_2 => cases hstep
  case h_1 buffer i stop hpc =>
    refine ⟨by simp [hpc], ?_⟩
    split at hstep
    case isTrue =>
      cases hstep
      exact ⟨rfl, rfl, rfl, rfl⟩
    case isFalse =>
      split at hstep
      case isTrue =>
        cases hstep
        exact ⟨rfl, rfl, rfl, rfl⟩
      case isFalse =>
        obtain ⟨t, _, rfl⟩ := Option.map_eq_some_iff.mp hstep
        exact ⟨rfl, rfl, rfl, rfl⟩

/-- What a thread does between its launch and its end keeps sight of all threads. -/
theorem Kept.manage (hkept : Kept s) {b : ThreadManager.Act} (hstep : s.manage b = some s')
    (hb : ∀ caller, b ≠ .launch caller) : Kept s' := by
  obtain ⟨manager, hmanager, rfl⟩ := Option.map_eq_some_iff.mp hstep
  refine ⟨fun t hpos ht => ?_, hkept.joined, fun t ht => ?_, hkept.emptied, hkept.idle⟩
  · exact hkept.known t hpos (ThreadManager.length_of_step hmanager hb ▸ ht)
  · obtain ⟨lThreadId, hfinished⟩ := hkept.finished t ht
    exact ⟨lThreadId, ThreadManager.finished_of_step hmanager hfinished⟩

theorem Kept.launch (hkept : Kept s) {caller : ℕ} {grown : Option ℕ}
    (hstep : s.launch caller grown = some s') : Kept s' := by
  have hgoing : s.life ≠ .ended := fun h => (Option.ite_none_left_eq_some.mp hstep).1 (.inl h)
  obtain ⟨-, -, hthreads, -, hmanager, -, hlife, hjoined, -⟩ := launch_spec hstep
  refine ⟨fun t hpos ht => ?_, fun handle hmem hdone => ?_, fun t ht => ?_,
    fun h => absurd (hlife.symm.trans h) hgoing, fun h => absurd (hlife.symm.trans h) hgoing⟩
  · rw [hmanager, List.length_append, List.length_singleton] at ht
    rw [hjoined, hthreads]
    by_cases hnew : t = s.manager.threads.length
    · exact .inr ⟨⟨s.manager.threads.length, true⟩, by simp, hnew.symm⟩
    · rcases hkept.known t hpos (by omega) with h | ⟨handle, hmem, hthread⟩
      · exact .inl h
      · exact .inr ⟨handle, List.mem_append_left _ hmem, hthread⟩
  · rw [hjoined]
    rw [hthreads, List.mem_append, List.mem_singleton] at hmem
    rcases hmem with hold | rfl
    · exact hkept.joined handle hold hdone
    · cases hdone
  · obtain ⟨lThreadId, hfinished⟩ := hkept.finished t (hjoined ▸ ht)
    refine ⟨lThreadId, ?_⟩
    rw [hmanager, List.getElem?_append_left (List.getElem?_eq_some_iff.mp hfinished).1]
    exact hfinished

/-- A `join` that returns leaves an object that is not joinable, of a thread that has ended. -/
theorem Kept.join (hkept : Kept s) (hstep : s.join = some s') : Kept s' := by
  obtain ⟨buffer, i, stop, t, lThreadId, hpc, ht, hfinished, rfl⟩ := join_spec hstep
  have hgoing : s.life ≠ .ended := fun hended => by
    rw [hkept.idle hended] at hpc
    cases hpc
  split
  case isTrue => exact ⟨hkept.known, hkept.joined, hkept.finished, hkept.emptied, hkept.idle⟩
  case isFalse =>
    refine ⟨fun u hpos hu => ?_, fun handle hmem hdone => ?_, fun u hu => ?_,
      fun hended => absurd hended hgoing, fun hended => absurd hended hgoing⟩
    · rcases hkept.known u hpos hu with h | ⟨handle, hmem, rfl⟩
      · exact .inl (List.mem_append_left _ h)
      · by_cases hsame : handle.thread = t.thread
        · exact .inl (by simp [hsame])
        · obtain ⟨k, hk⟩ := List.mem_iff_getElem?.mp hmem
          have hne : i ≠ k := by
            rintro rfl
            rw [ht] at hk
            cases hk
            exact hsame rfl
          refine .inr ⟨handle, List.mem_iff_getElem?.mpr ⟨k, ?_⟩, rfl⟩
          rw [List.getElem?_set_ne hne, hk]
    · rcases List.mem_or_eq_of_mem_set hmem with hold | rfl
      · exact List.mem_append_left _ (hkept.joined handle hold hdone)
      · exact List.mem_append_right _ (List.mem_singleton_self _)
    · rcases List.mem_append.mp hu with h | h
      · exact hkept.finished u h
      · cases List.mem_singleton.mp h
        exact ⟨lThreadId, hfinished⟩

/-- A vector that is destroyed while the process goes on held no joinable object. -/
theorem Kept.destroyAll (hkept : Kept s) (hgoing : s.destroyAll.halted = false) (life : Life) :
    Kept { s.destroyAll with pc := .idle, life := life } := by
  refine ⟨fun t hpos ht => ?_, fun handle hmem => ?_, hkept.finished, fun _ => rfl, fun _ => rfl⟩
  · rcases hkept.known t hpos ht with h | ⟨handle, hmem, rfl⟩
    · exact .inl h
    · refine .inl (hkept.joined handle hmem ?_)
      have hnone := List.any_eq_false.mp hgoing handle hmem
      exact Bool.eq_false_iff.mpr hnone
  · cases hmem

theorem Kept.step (hkept : Kept s) {a : Act} (hstep : s.step a = some s')
    (hgoing : s'.halted = false) : Kept s' := by
  obtain ⟨-, hstep⟩ := Option.ite_none_left_eq_some.mp hstep
  cases a with
  | initTLS t => exact hkept.manage hstep nofun
  | finish t => exact hkept.manage hstep nofun
  | launch caller grown => exact hkept.launch hstep
  | range destructor =>
    obtain ⟨-, halive, rfl⟩ := range_spec hstep
    have hgoing : (if destructor then Life.ending else .alive) ≠ .ended := by
      split <;> nofun
    exact ⟨hkept.known, hkept.joined, hkept.finished, fun hended => absurd hended hgoing,
      fun hended => absurd hended hgoing⟩
  | test =>
    obtain ⟨hpc, hmanager, hthreads, hjoined, hlife⟩ := test_unchanged hstep
    exact ⟨by rw [hmanager, hthreads, hjoined]; exact hkept.known,
      by rw [hthreads, hjoined]; exact hkept.joined,
      by rw [hmanager, hjoined]; exact hkept.finished,
      by rw [hlife, hthreads]; exact hkept.emptied,
      fun hended => absurd (hkept.idle (hlife.symm.trans hended)) hpc⟩
  | join => exact hkept.join hstep
  | clear =>
    obtain ⟨stop, -, rfl⟩ := clear_spec hstep
    exact hkept.destroyAll hgoing s.life
  | destroy =>
    obtain ⟨hpc, -, rfl⟩ := destroy_spec hstep
    have h := hkept.destroyAll hgoing .ended
    rwa [← hpc] at h

theorem Acts.congr {t : ℕ} (hacts : s.Acts t)
    (hthread : s'.manager.threads[t]? = s.manager.threads[t]?)
    (hbusy : t = 0 → s'.Busy → s.Busy) : s'.Acts t :=
  ⟨by rw [hthread]; exact hacts.1, fun ⟨hmain, h⟩ => hacts.2 ⟨hmain, hbusy hmain h⟩⟩

theorem Acts.running {t : ℕ} (hacts : s.Acts t) :
    ∃ lThreadId, s.manager.threads[t]? = some (.running lThreadId) := by
  obtain ⟨phase, hphase, hany⟩ := (Option.any_eq_true ..).mp hacts.1
  cases phase with
  | running lThreadId => exact ⟨lThreadId, hphase⟩
  | starting => cases hany
  | finished lThreadId => cases hany

/-- Who acts goes on to act, until a step of its own. -/
theorem Acts.step {a : Act} {t : ℕ} (hacts : s.Acts t) (hstep : s.step a = some s')
    (hother : a.caller ≠ some t) : s'.Acts t := by
  obtain ⟨lThreadId, hrunning⟩ := hacts.running
  obtain ⟨-, hstep⟩ := Option.ite_none_left_eq_some.mp hstep
  have hmain (h : s.Busy) : t ≠ 0 := fun hzero => hacts.2 ⟨hzero, h⟩
  cases a with
  | initTLS u =>
    obtain ⟨manager, hmanager, rfl⟩ := Option.map_eq_some_iff.mp hstep
    obtain ⟨hstarting, rfl⟩ := ThreadManager.initTLS_spec hmanager
    refine hacts.congr (List.getElem?_set_ne ?_) fun _ h => h
    rintro rfl
    rw [hstarting] at hrunning
    cases hrunning
  | finish u =>
    obtain ⟨manager, hmanager, rfl⟩ := Option.map_eq_some_iff.mp hstep
    obtain ⟨x, -, rfl⟩ := ThreadManager.finish_spec hmanager
    exact hacts.congr (List.getElem?_set_ne fun h => hother (congrArg some h)) fun _ h => h
  | launch caller grown =>
    obtain ⟨-, -, -, -, hmanager, hpc, hlife, -⟩ := launch_spec hstep
    refine hacts.congr ?_ fun _ => by rw [Busy, Busy, hpc, hlife]; exact id
    rw [hmanager, List.getElem?_append_left (List.getElem?_eq_some_iff.mp hrunning).1]
  | range destructor =>
    obtain ⟨-, -, rfl⟩ := range_spec hstep
    exact hacts.congr rfl fun hzero => absurd (congrArg some hzero.symm) hother
  | test =>
    obtain ⟨hpc, hmanager, -⟩ := test_unchanged hstep
    exact hacts.congr (by rw [hmanager]) fun hzero => absurd hzero (hmain (.inl hpc))
  | join =>
    obtain ⟨buffer, i, stop, u, x, hpc, -, -, rfl⟩ := join_spec hstep
    refine hacts.congr ?_ fun hzero => absurd hzero (hmain (.inl (by simp [hpc])))
    split <;> rfl
  | clear =>
    obtain ⟨stop, hpc, rfl⟩ := clear_spec hstep
    exact hacts.congr rfl fun hzero => absurd hzero (hmain (.inl (by simp [hpc])))
  | destroy =>
    obtain ⟨-, hlife, rfl⟩ := destroy_spec hstep
    exact hacts.congr rfl fun hzero => absurd hzero (hmain (.inr (by simp [hlife])))

theorem going_of_step {a : Act} (hstep : s.step a = some s') : s.halted = false :=
  Bool.eq_false_iff.mpr (Option.ite_none_left_eq_some.mp hstep).1

/-- Once the manager is gone and the process goes on, every thread that it launched has ended. -/
theorem Kept.finished_of_ended (hkept : Kept s) (hended : s.life = .ended) {t : ℕ} (hpos : 0 < t)
    (ht : t < s.manager.threads.length) :
    ∃ lThreadId, s.manager.threads[t]? = some (.finished lThreadId) := by
  rcases hkept.known t hpos ht with h | ⟨handle, hmem, -⟩
  · exact hkept.finished t h
  · rw [hkept.emptied hended] at hmem
    cases hmem

/-- Then nothing is left that could end the process otherwise. -/
theorem Kept.step_ended (hkept : Kept s) (hended : s.life = .ended) {a : Act}
    (hstep : s.step a = some s') : s'.life = .ended ∧ s'.halted = false := by
  have hgoing := going_of_step hstep
  have hidle := hkept.idle hended
  obtain ⟨-, hstep⟩ := Option.ite_none_left_eq_some.mp hstep
  cases a with
  | initTLS t =>
    obtain ⟨manager, -, rfl⟩ := Option.map_eq_some_iff.mp hstep
    exact ⟨hended, hgoing⟩
  | finish t =>
    obtain ⟨manager, -, rfl⟩ := Option.map_eq_some_iff.mp hstep
    exact ⟨hended, hgoing⟩
  | launch caller grown =>
    obtain ⟨-, -, -, -, -, -, hlife, -, -, -, hhalted⟩ := launch_spec hstep
    exact ⟨hlife.trans hended, hhalted.trans hgoing⟩
  | range destructor =>
    obtain ⟨-, halive, -⟩ := range_spec hstep
    rw [hended] at halive
    cases halive
  | test => exact absurd hidle (test_unchanged hstep).1
  | join =>
    obtain ⟨buffer, i, stop, t, lThreadId, hpc, -⟩ := join_spec hstep
    rw [hidle] at hpc
    cases hpc
  | clear =>
    obtain ⟨stop, hpc, -⟩ := clear_spec hstep
    rw [hidle] at hpc
    cases hpc
  | destroy =>
    obtain ⟨-, hlife, -⟩ := destroy_spec hstep
    rw [hended] at hlife
    cases hlife

/-- Then nobody acts. -/
theorem Kept.not_acts (hkept : Kept s) (hended : s.life = .ended) (t : ℕ) : ¬ s.Acts t := by
  intro hacts
  obtain ⟨lThreadId, hrunning⟩ := hacts.running
  have hpos : 0 < t := by
    rcases Nat.eq_zero_or_pos t with rfl | hpos
    · exact absurd ⟨rfl, .inr (by simp [hended])⟩ hacts.2
    · exact hpos
  obtain ⟨x, hfinished⟩ :=
    hkept.finished_of_ended hended hpos (List.getElem?_eq_some_iff.mp hrunning).1
  rw [hrunning] at hfinished
  cases hfinished

end Process

end CppServer.ThreadJoin
