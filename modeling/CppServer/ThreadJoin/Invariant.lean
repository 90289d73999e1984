import CppServer.ThreadJoin.Steps

namespace CppServer.ThreadJoin

open Base

/-- Has a `Launch` returned since `Join` took its range? -/
def launchedSince (as : List Act) : Bool :=
  as.foldl (fun launched a =>
    match a with
    | .range _ => false
    | .launch _ _ => true
    | _ => launched) false

/-- Has a `Launch` moved the vector since `Join` took its range? -/
def movedSince (as : List Act) : Bool :=
  as.foldl (fun moved a =>
    match a with
    | .range _ => false
    | .launch _ (some _) => true
    | _ => moved) false

theorem launchedSince_snoc (as : List Act) (a : Act) : launchedSince (as ++ [a]) =
    match a with
    | .range _ => false
    | .launch _ _ => true
    | _ => launchedSince as := by
  rw [launchedSince, List.foldl_concat]
  rfl

theorem movedSince_snoc (as : List Act) (a : Act) : movedSince (as ++ [a]) =
    match a with
    | .range _ => false
    | .launch _ (some _) => true
    | _ => movedSince as := by
  rw [movedSince, List.foldl_concat]
  rfl

theorem launchedSince_of_movedSince {as : List Act} (h : movedSince as = true) :
    launchedSince as = true := by
  induction as using List.reverseRecOn with
  | nil => cases h
  | append_singleton as a ih =>
    rw [movedSince_snoc] at h
    rw [launchedSince_snoc]
    cases a with
    | launch caller grown => rfl
    | range destructor => cases h
    | initTLS t => exact ih h
    | finish t => exact ih h
    | test => exact ih h
    | join => exact ih h
    | clear => exact ih h
    | destroy => exact ih h

/-- The index of the first element that `Join` has not joined. -/
def Pc.next : Pc → ℕ
  | .idle => 0
  | .loop _ i _ => i
  | .joining _ i _ => i
  | .clear stop => stop

namespace Process

/-- A range that `Join` is walking through: its end is the vector's unless something has
been launched since, and its buffer is the vector's unless that has moved. -/
structure Ranging (as : List Act) (s : Process) (buffer stop : ℕ) : Prop where
  behind : buffer ≤ s.buffer
  length : stop ≤ s.threads.length
  launched : launchedSince as = true ↔ stop < s.threads.length
  moved : movedSince as = true ↔ buffer < s.buffer

/-- Past the loop nobody is left who could launch. -/
def Stands (as : List Act) (s : Process) : Pc → Prop
  | .idle => s.life ≠ .alive → s.threads = []
  | .loop buffer i stop => Ranging as s buffer stop ∧ i ≤ stop
  | .joining buffer i stop => Ranging as s buffer stop ∧ i < stop
  | .clear stop => s.threads.length = stop

/-- What holds as long as no stale range has been used. -/
structure Inv (as : List Act) (s : Process) : Prop where
  stands : Stands as s s.pc
  joinable : ∀ k t, s.threads[k]? = some t → (t.joinable = true ↔ s.pc.next ≤ k)
  joined : ∀ k t, s.threads[k]? = some t → k < s.pc.next → t.thread ∈ s.joined
  known : ∀ t, 0 < t → t < s.manager.threads.length →
    t ∈ s.joined ∨ ∃ k : ℕ, ∃ handle : Handle, s.threads[k]? = some handle ∧ handle.thread = t
  finished : ∀ t ∈ s.joined, ∃ lThreadId, s.manager.threads[t]? = some (.finished lThreadId)

theorem inv_start : Inv [] machine.start := by
  refine ⟨fun h => absurd rfl h, fun k t h => ?_, fun k t h => ?_, fun t hpos ht => ?_, fun t h => ?_⟩
  · simp [machine] at h
  · simp [machine] at h
  · simp [machine] at ht
    omega
  · simp [machine] at h

/-- Nobody can launch when every element has been joined and the main thread is busy. -/
theorem Inv.not_running {as : List Act} {s : Process} (hinv : Inv as s)
    (hall : s.threads.length ≤ s.pc.next) {caller : ℕ} (hcaller : caller ≠ 0)
    {lThreadId : BitVec 32} : s.manager.threads[caller]? ≠ some (.running lThreadId) := by
  intro hrunning
  have hbound := (List.getElem?_eq_some_iff.mp hrunning).1
  have hjoined : caller ∈ s.joined := by
    rcases hinv.known caller (Nat.pos_of_ne_zero hcaller) hbound with h | ⟨k, t, ht, rfl⟩
    · exact h
    · have hk := (List.getElem?_eq_some_iff.mp ht).1
      exact hinv.joined k t ht (by omega)
  obtain ⟨_, hfinished⟩ := hinv.finished caller hjoined
  rw [hrunning] at hfinished
  cases hfinished

/-- A range stays what it is under labels that `Join` does not care for. -/
theorem Ranging.congr {as as' : List Act} {s s' : Process} {buffer stop : ℕ}
    (hrange : Ranging as s buffer stop) (hlaunched : launchedSince as' = launchedSince as)
    (hmoved : movedSince as' = movedSince as) (hbuffer : s'.buffer = s.buffer)
    (hlength : s'.threads.length = s.threads.length) : Ranging as' s' buffer stop := by
  obtain ⟨hbehind, hstop, hl, hm⟩ := hrange
  exact ⟨hbuffer ▸ hbehind, hlength ▸ hstop, by rw [hlaunched, hlength, hl],
    by rw [hmoved, hbuffer, hm]⟩

theorem Stands.congr {as as' : List Act} {s s' : Process} {pc : Pc} (hstands : Stands as s pc)
    (hlaunched : launchedSince as' = launchedSince as) (hmoved : movedSince as' = movedSince as)
    (hbuffer : s'.buffer = s.buffer) (hthreads : s'.threads = s.threads)
    (hlife : s'.life = s.life) : Stands as' s' pc := by
  have hlength := congrArg List.length hthreads
  cases pc with
  | idle => exact fun h => hthreads.trans (hstands (hlife ▸ h))
  | loop buffer i stop =>
    exact ⟨hstands.1.congr hlaunched hmoved hbuffer hlength, hstands.2⟩
  | joining buffer i stop =>
    exact ⟨hstands.1.congr hlaunched hmoved hbuffer hlength, hstands.2⟩
  | clear stop => exact hlength.trans hstands

theorem Stands.next_le {as : List Act} {s : Process} {pc : Pc} (hstands : Stands as s pc) :
    pc.next ≤ s.threads.length := by
  cases pc with
  | idle => exact Nat.zero_le _
  | loop buffer i stop => exact hstands.2.trans hstands.1.length
  | joining buffer i stop => exact hstands.2.le.trans hstands.1.length
  | clear stop => exact hstands.ge

/-- What a thread does between its launch and its end keeps the invariant. -/
theorem Inv.manage {as : List Act} {s s' : Process} {a : Act} {b : ThreadManager.Act}
    (hinv : Inv as s) (hstep : s.manage b = some s')
    (hb : ∀ caller, b ≠ .launch caller) (hlaunched : launchedSince (as ++ [a]) = launchedSince as)
    (hmoved : movedSince (as ++ [a]) = movedSince as) : Inv (as ++ [a]) s' := by
  obtain ⟨manager, hmanager, rfl⟩ := Option.map_eq_some_iff.mp hstep
  have hlength : manager.threads.length = s.manager.threads.length :=
    ThreadManager.length_of_step hmanager hb
  refine ⟨hinv.stands.congr hlaunched hmoved rfl rfl rfl, hinv.joinable, hinv.joined,
    fun t hpos ht => ?_, fun t ht => ?_⟩
  · exact hinv.known t hpos (hlength ▸ ht)
  · obtain ⟨lThreadId, hfinished⟩ := hinv.finished t ht
    exact ⟨lThreadId, ThreadManager.finished_of_step hmanager hfinished⟩

/-- A launch outdates the range that `Join` is walking through, and moves away from it if
the vector grows. -/
theorem Inv.launch {as : List Act} {s s' : Process} {caller : ℕ} {grown : Option ℕ}
    (hinv : Inv as s) (hstep : s.launch caller grown = some s') :
    Inv (as ++ [.launch caller grown]) s' := by
  obtain ⟨hfree, ⟨lThreadId, hrunning⟩, hthreads, hbuffer, hmanager, hpc, hlife, hjoined, -⟩ :=
    launch_spec hstep
  have hlength : s'.threads.length = s.threads.length + 1 := by simp [hthreads]
  have hrange {buffer stop : ℕ} (h : Ranging as s buffer stop) :
      Ranging (as ++ [.launch caller grown]) s' buffer stop := by
    obtain ⟨hbehind, hstop, hl, hm⟩ := h
    refine ⟨by omega, by omega, ?_, ?_⟩
    · rw [launchedSince_snoc, hlength]
      exact iff_of_true rfl (by omega)
    · rw [movedSince_snoc, hbuffer]
      cases grown with
      | none => exact hm
      | some capacity => exact iff_of_true rfl (by simpa using Nat.lt_succ_of_le hbehind)
  have hbusy (h : s.Busy) : caller ≠ 0 := fun hcaller => hfree ⟨hcaller, h⟩
  have hstands := hinv.stands
  have hnext := hstands.next_le
  refine ⟨?_, fun k t ht => ?_, fun k t ht hk => ?_, fun t hpos ht => ?_, fun t ht => ?_⟩
  · rw [hpc]
    cases hat : s.pc with
    | idle =>
      intro hending
      rw [hlife] at hending
      rw [hat] at hstands
      have hempty := hstands hending
      exact absurd hrunning (hinv.not_running (by simp [hempty]) (hbusy (.inr hending)))
    | loop buffer i stop =>
      rw [hat] at hstands
      exact ⟨hrange hstands.1, hstands.2⟩
    | joining buffer i stop =>
      rw [hat] at hstands
      exact ⟨hrange hstands.1, hstands.2⟩
    | clear stop =>
      rw [hat] at hstands
      have hall : s.threads.length ≤ s.pc.next := by
        rw [hat]
        exact hstands.le
      exact absurd hrunning (hinv.not_running hall (hbusy (.inl (by simp [hat]))))
  · rw [hthreads, List.getElem?_append] at ht
    rw [hpc]
    split at ht
    case isTrue => exact hinv.joinable k t ht
    case isFalse hk =>
      rw [List.getElem?_singleton] at ht
      split at ht
      case isTrue =>
        cases ht
        exact iff_of_true rfl (by omega)
      case isFalse => cases ht
  · rw [hpc] at hk
    rw [hthreads, List.getElem?_append_left (by omega)] at ht
    rw [hjoined]
    exact hinv.joined k t ht hk
  · rw [hmanager, List.length_append, List.length_singleton] at ht
    rw [hthreads, hjoined]
    by_cases hnew : t = s.manager.threads.length
    · exact .inr ⟨s.threads.length, ⟨t, true⟩, by simp [hnew], rfl⟩
    · rcases hinv.known t hpos (by omega) with h | ⟨k, handle, hk, hthread⟩
      · exact .inl h
      · have hbound := (List.getElem?_eq_some_iff.mp hk).1
        exact .inr ⟨k, handle, by rw [List.getElem?_append_left hbound, hk], hthread⟩
  · rw [hjoined] at ht
    obtain ⟨lThreadId, hfinished⟩ := hinv.finished t ht
    refine ⟨lThreadId, ?_⟩
    rw [hmanager, List.getElem?_append_left (List.getElem?_eq_some_iff.mp hfinished).1]
    exact hfinished

theorem Inv.range {as : List Act} {s s' : Process} {destructor : Bool} (hinv : Inv as s)
    (hstep : s.range destructor = some s') : Inv (as ++ [.range destructor]) s' := by
  obtain ⟨hpc, -, rfl⟩ := range_spec hstep
  refine ⟨⟨⟨le_rfl, le_rfl, ?_, ?_⟩, Nat.zero_le _⟩, fun k t ht => ?_, fun k t ht hk => ?_,
    hinv.known, hinv.finished⟩
  · rw [launchedSince_snoc]
    exact iff_of_false Bool.false_ne_true (lt_irrefl _)
  · rw [movedSince_snoc]
    exact iff_of_false Bool.false_ne_true (lt_irrefl _)
  · have h := hinv.joinable k t ht
    rwa [hpc] at h
  · exact absurd hk (Nat.not_lt_zero k)

theorem Inv.test {as : List Act} {s s' : Process} (hinv : Inv as s) (hstep : s.test = some s')
    (hfresh : s'.stale = false) : Inv (as ++ [.test]) s' := by
  obtain ⟨buffer, i, stop, hpc, hstale, -, -, hgo⟩ := test_spec hstep
  have hstands := hinv.stands
  have hjoinable := hinv.joinable
  have hjoined := hinv.joined
  rw [hpc] at hstands hjoinable hjoined
  obtain ⟨hrange, hi⟩ := hstands
  rcases hgo hfresh with ⟨rfl, rfl⟩ | ⟨hmore, t, ht, rfl⟩
  · rw [hstale, Bool.or_eq_false_iff, decide_eq_false_iff_not] at hfresh
    refine ⟨?_, hjoinable, hjoined, hinv.known, hinv.finished⟩
    by_contra hne
    exact hfresh.2 (.inr (Ne.symm hne))
  · -- every element from the next one on is still joinable
    have htrue : t.joinable = true := (hjoinable i t ht).mpr le_rfl
    rw [if_pos htrue]
    refine ⟨⟨?_, by omega⟩, hjoinable, hjoined, hinv.known, hinv.finished⟩
    exact hrange.congr (launchedSince_snoc as .test) (movedSince_snoc as .test) rfl rfl

theorem Inv.join {as : List Act} {s s' : Process} (hinv : Inv as s) (hstep : s.join = some s')
    (hfresh : s'.stale = false) : Inv (as ++ [.join]) s' := by
  obtain ⟨buffer, i, stop, t, lThreadId, hpc, ht, hfinished, heq⟩ := join_spec hstep
  split at heq
  case isTrue =>
    rw [heq] at hfresh
    cases hfresh
  case isFalse =>
    subst heq
    have hi := (List.getElem?_eq_some_iff.mp ht).1
    have hstands := hinv.stands
    rw [hpc] at hstands
    obtain ⟨hrange, hlt⟩ := hstands
    have hget (k : ℕ) : (s.threads.set i { t with joinable := false })[k]? =
        if i = k then some { t with joinable := false } else s.threads[k]? := by
      rw [List.getElem?_set]
      simp [hi]
    refine ⟨⟨hrange.congr (launchedSince_snoc as .join) (movedSince_snoc as .join) rfl
      List.length_set, hlt⟩, fun k u hu => ?_, fun k u hu hk => ?_, fun u hpos hu => ?_, fun u hu => ?_⟩
    · change u.joinable = true ↔ i + 1 ≤ k
      rw [hget] at hu
      split at hu
      case isTrue heq =>
        cases hu
        exact iff_of_false Bool.false_ne_true (by omega)
      case isFalse hne =>
        rw [hinv.joinable k u hu, hpc]
        exact ⟨fun h => Nat.lt_of_le_of_ne h hne, Nat.le_of_succ_le⟩
    · rw [hget] at hu
      rw [List.mem_append]
      split at hu
      case isTrue =>
        cases hu
        exact .inr (List.mem_singleton_self _)
      case isFalse hne =>
        refine .inl (hinv.joined k u hu ?_)
        rw [hpc]
        change k < i + 1 at hk
        change k < i
        omega
    · rcases hinv.known u hpos hu with h | ⟨k, handle, hk, hthread⟩
      · exact .inl (List.mem_append_left _ h)
      · by_cases hki : i = k
        · subst hki
          rw [ht] at hk
          cases hk
          exact .inl (by simp [hthread])
        · exact .inr ⟨k, handle, by rw [hget, if_neg hki, hk], hthread⟩
    · rcases List.mem_append.mp hu with h | h
      · exact hinv.finished u h
      · cases List.mem_singleton.mp h
        exact ⟨lThreadId, hfinished⟩

/-- What the vector holds after the loop has been joined. -/
theorem Inv.all_joined {as : List Act} {s : Process} (hinv : Inv as s)
    (hall : s.threads.length ≤ s.pc.next) : ∀ t ∈ s.threads, t.thread ∈ s.joined := by
  intro t ht
  obtain ⟨k, hk⟩ := List.mem_iff_getElem?.mp ht
  have hbound := (List.getElem?_eq_some_iff.mp hk).1
  exact hinv.joined k t hk (by omega)

/-- A vector whose elements have all been joined may be emptied. -/
theorem Inv.emptied {as as' : List Act} {s : Process} (hinv : Inv as s)
    (hall : s.threads.length ≤ s.pc.next) (life : Life) :
    Inv as' { s.destroyAll with pc := .idle, life := life } := by
  have hnone (k : ℕ) (t : Handle) : (([] : List Handle)[k]? = some t) → False := by simp
  refine ⟨fun _ => rfl, fun k t ht => (hnone k t ht).elim, fun k t ht => (hnone k t ht).elim,
    fun t hpos ht => ?_, hinv.finished⟩
  rcases hinv.known t hpos ht with h | ⟨k, handle, hk, rfl⟩
  · exact .inl h
  · exact .inl (hinv.all_joined hall handle (List.mem_of_getElem? hk))

/-- At the end of the loop and after it no element is left to join. -/
theorem Inv.length_le_clear {as : List Act} {s : Process} (hinv : Inv as s) {stop : ℕ}
    (hpc : s.pc = .clear stop) : s.threads.length ≤ s.pc.next := by
  have hstands := hinv.stands
  rw [hpc] at hstands
  rw [hpc]
  exact hstands.le

theorem Inv.length_le_ending {as : List Act} {s : Process} (hinv : Inv as s) (hpc : s.pc = .idle)
    (hlife : s.life = .ending) : s.threads.length ≤ s.pc.next := by
  have hstands := hinv.stands
  rw [hpc] at hstands
  have hempty : s.threads = [] := hstands (by simp [hlife])
  simp [hempty]

theorem fresh_of_step {s s' : Process} {a : Act} (hstep : s.step a = some s')
    (hfresh : s'.stale = false) : s.stale = false := by
  obtain ⟨-, hstep⟩ := Option.ite_none_left_eq_some.mp hstep
  cases a with
  | initTLS t =>
    obtain ⟨manager, -, rfl⟩ := Option.map_eq_some_iff.mp hstep
    exact hfresh
  | finish t =>
    obtain ⟨manager, -, rfl⟩ := Option.map_eq_some_iff.mp hstep
    exact hfresh
  | launch caller grown =>
    obtain ⟨-, -, -, -, -, -, -, -, -, hs, -⟩ := launch_spec hstep
    exact hs.symm.trans hfresh
  | range destructor =>
    obtain ⟨-, -, rfl⟩ := range_spec hstep
    exact hfresh
  | test =>
    obtain ⟨buffer, i, stop, -, hs, -⟩ := test_spec hstep
    exact (Bool.or_eq_false_iff.mp (hs.symm.trans hfresh)).1
  | join =>
    obtain ⟨buffer, i, stop, t, lThreadId, -, -, -, rfl⟩ := join_spec hstep
    split at hfresh
    case isTrue => cases hfresh
    case isFalse => exact hfresh
  | clear =>
    obtain ⟨stop, -, rfl⟩ := clear_spec hstep
    exact hfresh
  | destroy =>
    obtain ⟨-, -, rfl⟩ := destroy_spec hstep
    exact hfresh

theorem Inv.step {as : List Act} {s s' : Process} {a : Act} (hinv : Inv as s)
    (hstep : s.step a = some s') (hfresh : s'.stale = false) : Inv (as ++ [a]) s' := by
  obtain ⟨-, hstep⟩ := Option.ite_none_left_eq_some.mp hstep
  cases a with
  | initTLS t =>
    exact hinv.manage hstep (fun _ h => by cases h) (launchedSince_snoc ..) (movedSince_snoc ..)
  | finish t =>
    exact hinv.manage hstep (fun _ h => by cases h) (launchedSince_snoc ..) (movedSince_snoc ..)
  | launch caller grown => exact hinv.launch hstep
  | range destructor => exact hinv.range hstep
  | test => exact hinv.test hstep hfresh
  | join => exact hinv.join hstep hfresh
  | clear =>
    obtain ⟨stop, hpc, rfl⟩ := clear_spec hstep
    exact hinv.emptied (hinv.length_le_clear hpc) s.life
  | destroy =>
    obtain ⟨hpc, hlife, rfl⟩ := destroy_spec hstep
    have h : Inv (as ++ [.destroy]) { s.destroyAll with pc := .idle, life := .ended } :=
      hinv.emptied (hinv.length_le_ending hpc hlife) .ended
    rwa [← hpc] at h

theorem inv_run {as : List Act} {s : Process} (hrun : machine.Run Machine.Any as s)
    (hfresh : s.stale = false) : Inv as s := by
  induction hrun with
  | start => exact inv_start
  | snoc _ _ hstep ih => exact (ih (fresh_of_step hstep hfresh)).step hstep hfresh

end Process

end CppServer.ThreadJoin
