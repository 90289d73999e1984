import CppServer.Locks.Waiting

namespace CppServer.Locks

open Function Base Base.Graph Relation DeadLockProfiler

section Pushes

variable {L Name : Type}

/-- What a thread has on the profiler's stack: a lock is pushed before it is acquired, and popped
before it is released. -/
def pushes (name : L → Name) (holds : List (L × Hold)) : Place L → List Name
  | .outside | .profile _ _ => holds.map fun hold => name hold.1
  | .code l pc =>
    match pc.op with
    | some .writeLock | some .readLock => name l :: holds.map fun hold => name hold.1
    | some .writeUnlock | some .readUnlock => (holds.map fun hold => name hold.1).tail
    | none => holds.map fun hold => name hold.1

variable {name : L → Name} {holds : List (L × Hold)} {l : L} {op : Op}

/-- The profiler's stack follows the call. -/
theorem pushes_profiled (name : L → Name) (hallowed : Allowed l op holds) :
    match profiled (name l) op with
    | .push n => pushes name holds (.code l op.entry) = n :: pushes name holds (.profile l op)
    | .pop n => pushes name holds (.profile l op) = n :: pushes name holds (.code l op.entry) := by
  cases op with
  | writeLock | readLock => rfl
  | writeUnlock | readUnlock =>
    obtain ⟨rest, rfl⟩ := List.head?_eq_some_iff.mp hallowed
    rfl

/-- In the code of the lock nothing changes on it. -/
theorem pushes_code {pc next : Pc} (hop : pc.op = some op) (hnext : next.op = none ∨ next.op = pc.op) :
    pushes name (settled l pc next holds) (if next = .idle then .outside else .code l next) =
      pushes name holds (.code l pc) := by
  by_cases hidle : next = .idle
  · subst hidle
    rw [if_pos rfl, settled_idle hop]
    cases op <;> simp [pushes, hop, settle, List.map_tail]
  · rw [if_neg hidle, settled_of_ne hidle]
    have hsame := hnext.resolve_left fun h => hidle (Lock.op_eq_none_iff.mp h)
    simp only [pushes, hsame]

end Pushes

variable {T L Name : Type} [DecidableEq T] [DecidableEq L] [DecidableEq Name] [Fintype T]
  {ids : ThreadIds T} {name : L → Name} {s s' : Threads T L Name}

/-- The profiler has seen a thread acquire the one while it had the other, unless their names are
the same. -/
def Noted {L Name : Type} [DecidableEq Name] (name : L → Name) (calls : List (Call Name))
    (l l' : L) : Prop :=
  name l ≠ name l' → Profiler.HeldBefore calls (name l) (name l')

/-- The profiler in the debug build: it has returned from all calls, its stack is what the threads
have pushed and not popped, and it has seen every pair of locks that a thread has and acquires. -/
structure Profiled (name : L → Name) (s : Threads T L Name) : Prop where
  run : Profiler.run s.calls = .ok s.profiler
  pops : Profiler.PopsKnown s.calls
  pushed : ∀ n ∈ s.profiler.held, .push n ∈ s.calls
  stack : ∀ n, s.profiler.held.count n = ∑ t, (pushes name (s.holds t) (s.place t)).count n
  ordered : ∀ t, Ordered (Noted name s.calls) (s.holds t) (s.place t)

omit [DecidableEq T] [DecidableEq L] in
theorem Profiled.mem_held (hprofiled : Profiled name s) {t : T} {n : Name}
    (hn : n ∈ pushes name (s.holds t) (s.place t)) : n ∈ s.profiler.held := by
  rw [← List.count_pos_iff, hprofiled.stack]
  have hpos := List.count_pos_iff.mpr hn
  have hle := Counting.le_total (fun u => (pushes name (s.holds u) (s.place u)).count n) t
  omega

omit [DecidableEq L] in
/-- What all threads have pushed changes by what the thread that moved has. -/
theorem Moved.sum_pushes {t : T} {place : Place L} {holds : List (L × Hold)}
    (hmoved : Moved s s' t place holds) (name : L → Name) (n : Name) :
    ∑ u, (pushes name (s'.holds u) (s'.place u)).count n +
        (pushes name (s.holds t) (s.place t)).count n =
      ∑ u, (pushes name (s.holds u) (s.place u)).count n + (pushes name holds place).count n := by
  have hself : pushes name (s'.holds t) (s'.place t) = pushes name holds place := by
    rw [hmoved.place, hmoved.holds, update_self, update_self]
  have hrest (u : T) (hu : u ≠ t) : (pushes name (s'.holds u) (s'.place u)).count n =
      (pushes name (s.holds u) (s.place u)).count n := by
    rw [hmoved.place, hmoved.holds, update_of_ne hu, update_of_ne hu]
  have h := Counting.total_change hrest
  rwa [hself] at h

omit [DecidableEq L] in
/-- A step that tells the profiler nothing. -/
theorem Profiled.quiet (hprofiled : Profiled name s) {t : T} {place : Place L}
    {holds : List (L × Hold)} (hcalls : s'.calls = s.calls) (hprofiler : s'.profiler = s.profiler)
    (hmoved : Moved s s' t place holds)
    (hpushes : pushes name holds place = pushes name (s.holds t) (s.place t))
    (hordered : Ordered (Noted name s.calls) holds place) : Profiled name s' := by
  obtain ⟨hrun, hpops, hpushed, hstack, hbefore⟩ := hprofiled
  rw [← hcalls] at hrun hpops hpushed hbefore hordered
  rw [← hprofiler] at hrun hpushed hstack
  refine ⟨hrun, hpops, hpushed, fun n => ?_, ?_⟩
  · have hsum := hmoved.sum_pushes name n
    rw [hpushes] at hsum
    rw [hstack]
    omega
  · exact hmoved.forall (Q := fun _ place holds => Ordered (Noted name s'.calls) holds place)
      (fun v _ => hbefore v) hordered

omit [DecidableEq L] in
/-- A pushed name is on the stack, and comes after all that its thread has. -/
theorem Profiled.push (hprofiled : Profiled name s) {t : T} {l : L} {op : Op}
    (hplace : s.place t = .profile l op) (hpush : profiled (name l) op = .push (name l))
    (hallowed : Allowed l op (s.holds t)) (hmoved : Moved s s' t (.code l op.entry) (s.holds t))
    (hcalls : s'.calls = s.calls ++ [.push (name l)])
    (hcall : s.profiler.pushLock (name l) = .ok s'.profiler) : Profiled name s' := by
  have htraced := Profiler.traced_run hprofiled.pops hprofiled.run
  have hrun : Profiler.run s'.calls = .ok s'.profiler := by
    rw [hcalls, Profiler.run_snoc, hprofiled.run]
    exact hcall
  have hheld : s'.profiler.held = name l :: s.profiler.held := by
    obtain ⟨p, hp, -, -, ⟨hok, -⟩ | ⟨⟨report, hcrash⟩, -⟩⟩ :=
      Profiler.pushLock_spec htraced.toInv (name l)
    · rw [hok] at hcall
      cases hcall
      exact hp
    · rw [hcrash] at hcall
      cases hcall
  have hpushes := pushes_profiled name hallowed
  rw [hpush] at hpushes
  have hbefore (x y : L) (h : Noted name s.calls x y) : Noted name s'.calls x y := by
    intro hne
    rw [hcalls, Profiler.heldBefore_push hprofiled.run]
    exact .inl (h hne)
  refine ⟨hrun, ?_, fun n hn => ?_, fun n => ?_, fun u => ?_⟩
  · rw [hcalls]
    exact Profiler.popsKnown_snoc.mpr ⟨hprofiled.pops, fun _ h => by cases h⟩
  · rw [hcalls, List.mem_append]
    rw [hheld] at hn
    rcases List.mem_cons.mp hn with rfl | hn
    · exact .inr (List.mem_singleton.mpr rfl)
    · exact .inl (hprofiled.pushed n hn)
  · have hsum := hmoved.sum_pushes name n
    rw [hplace, hpushes, List.count_cons] at hsum
    rw [hheld, List.count_cons, hprofiled.stack]
    omega
  · refine hmoved.forall (Q := fun _ place holds => Ordered (Noted name s'.calls) holds place)
      (fun v _ => (hprofiled.ordered v).mono hbefore) ?_ u
    intro _ hold hhold _ hne
    rw [hcalls, Profiler.heldBefore_push hprofiled.run]
    refine .inr ⟨rfl, hprofiled.mem_held (t := t) ?_, hne⟩
    rw [hplace]
    exact List.mem_map_of_mem hhold

omit [DecidableEq L] in
/-- A popped name was the thread's own, and goes from the top of the stack. -/
theorem Profiled.pop (hprofiled : Profiled name s) {t : T} {l : L} {op : Op}
    (hplace : s.place t = .profile l op) (hpop : profiled (name l) op = .pop (name l))
    (hallowed : Allowed l op (s.holds t)) (hmoved : Moved s s' t (.code l op.entry) (s.holds t))
    (hcalls : s'.calls = s.calls ++ [.pop (name l)])
    (hcall : s.profiler.popLock (name l) = .ok s'.profiler) : Profiled name s' := by
  have htraced := Profiler.traced_run hprofiled.pops hprofiled.run
  have hpushes := pushes_profiled name hallowed
  rw [hpop] at hpushes
  have hmem : name l ∈ s.profiler.held := by
    apply hprofiled.mem_held (t := t)
    rw [hplace, hpushes]
    exact List.mem_cons_self
  have hpushed := hprofiled.pushed _ hmem
  have hrun : Profiler.run s'.calls = .ok s'.profiler := by
    rw [hcalls, Profiler.run_snoc, hprofiled.run]
    exact hcall
  have hheld : s.profiler.held = name l :: s'.profiler.held := by
    rcases Profiler.popLock_spec htraced.toInv (htraced.registered _ hpushed) with
      ⟨rest, p, hrest, hok, -, hp, -, -⟩ | ⟨-, cause, hcrash⟩
    · rw [hok] at hcall
      cases hcall
      rw [hrest, hp]
    · rw [hcrash] at hcall
      cases hcall
  have hbefore (x y : L) (h : Noted name s.calls x y) : Noted name s'.calls x y := by
    intro hne
    rw [hcalls, Profiler.heldBefore_pop]
    exact h hne
  refine ⟨hrun, ?_, fun n hn => ?_, fun n => ?_, fun u => ?_⟩
  · rw [hcalls]
    refine Profiler.popsKnown_snoc.mpr ⟨hprofiled.pops, fun _ h => ?_⟩
    cases h
    exact hpushed
  · rw [hcalls, List.mem_append]
    refine .inl (hprofiled.pushed n ?_)
    rw [hheld]
    exact List.mem_cons_of_mem _ hn
  · have hsum := hmoved.sum_pushes name n
    have hstack := hprofiled.stack n
    rw [hplace, hpushes, List.count_cons] at hsum
    rw [hheld, List.count_cons] at hstack
    omega
  · refine hmoved.forall (Q := fun _ place holds => Ordered (Noted name s'.calls) holds place)
      (fun v _ => (hprofiled.ordered v).mono hbefore) ?_ u
    intro hop
    cases op <;> simp [Op.entry, Pc.op, profiled] at hop hpop

omit [DecidableEq T] [DecidableEq L] in
theorem profiled_start (name : L → Name) : Profiled name ({} : Threads T L Name) where
  run := rfl
  pops := by simp [Profiler.PopsKnown]
  pushed _ h := absurd h List.not_mem_nil
  stack _ := (Finset.sum_eq_zero fun _ _ => rfl).symm
  ordered _ := trivial

omit [DecidableEq L] in
/-- A step keeps the profiler's invariant: all but the profiler's own call leave it alone. -/
theorem Profiled.step (hprofiled : Profiled name s) (hwithin : ∀ t, Within (s.holds t) (s.place t))
    {a : Act T L} (hchange : Change ids name true s a s') : Profiled name s' := by
  cases hchange with
  | crash fault hnext =>
    subst hnext
    exact ⟨hprofiled.run, hprofiled.pops, hprofiled.pushed, hprofiled.stack, hprofiled.ordered⟩
  | enter t l op _ hplace hallowed hmoved _ hcalls hprofiler =>
    refine hprofiled.quiet hcalls hprofiler hmoved ?_ trivial
    rw [hplace]
    rfl
  | profile t l op hplace hmoved _ hcalls hprofiler =>
    have hallowed := hwithin t
    rw [hplace] at hallowed
    cases op with
    | writeLock | readLock => exact hprofiled.push hplace rfl hallowed hmoved hcalls hprofiler
    | writeUnlock | readUnlock => exact hprofiled.pop hplace rfl hallowed hmoved hcalls hprofiler
  | code t l tick pc next hplace hstep hmoved _ hcalls hprofiler =>
    obtain ⟨op, hop, -⟩ := within_code hwithin hplace
    have hordered := hprofiled.ordered t
    rw [hplace] at hordered
    by_cases hnext : next = .idle
    · subst hnext
      refine hprofiled.quiet hcalls hprofiler hmoved ?_ trivial
      rw [hplace]
      exact pushes_code hop (.inl rfl)
    · have hsame := Lock.op_step hstep hnext
      refine hprofiled.quiet hcalls hprofiler hmoved ?_ ?_
      · rw [hplace]
        exact pushes_code hop (.inr hsame)
      · rw [if_neg hnext, settled_of_ne hnext]
        exact fun h => hordered (hsame ▸ h)

/-- What holds in every state of a run of the debug build by the rules. -/
theorem profiled_run {before : L → L → Prop} {as : List (Act T L)}
    (hrun : (machine ids name true).Run (fun s a s' => s'.WithinLimits ∧ s.Obeys before a) as s) :
    Sound ids s ∧ Profiled name s ∧ ∀ t, Obeying before (s.holds t) (s.place t) := by
  refine hrun.invariant (P := fun s => Sound ids s ∧ Profiled name s ∧
    ∀ t, Obeying before (s.holds t) (s.place t)) ?_ ?_
  · refine ⟨sound_start ids, profiled_start name, fun t l op hcall => ?_⟩
    cases hcall
  · rintro s a s' ⟨hsound, hprofiled, hobeying⟩ ⟨hlimits, hobeys⟩ hstep
    have hchange := change_of_step hstep
    exact ⟨hsound.step hchange hlimits, hprofiled.step hsound.within hchange,
      obeying_step hobeying hchange hobeys⟩

/-- The debug build crashes before it deadlocks. In every state that its threads reach under any
interleaving, no threads wait for each other's locks in a circle, and each thread that waits for a
lock waits in the end for one that has it and does not wait itself. The rules that this rests on are
R -> W (x), and that no thread acquires a lock while it has another one of the same name, since the
profiler takes the two for one. -/
theorem debug_no_deadlock {as : List (Act T L)}
    (hrun : (machine ids name true).Run
      (fun s a s' => s'.WithinLimits ∧ s.Obeys (fun l l' => name l ≠ name l') a) as s) :
    Acyclic (WaitsFor (wants s) (Has s)) ∧
      ∀ t, wants s t ≠ none → ∃ u, TransGen (WaitsFor (wants s) (Has s)) t u ∧ wants s u = none := by
  obtain ⟨hsound, hprofiled, hobeying⟩ := profiled_run hrun
  have htraced := Profiler.traced_run hprofiled.pops hprofiled.run
  have hacyclic : Acyclic fun l l' => Profiler.HeldBefore s.calls (name l) (name l') :=
    htraced.acyclic_heldBefore.of_partialMap (f := fun l => some (name l))
      fun l l' h => ⟨name l, name l', rfl, rfl, h⟩
  refine hsound.no_deadlock hobeying hacyclic fun t => ?_
  have hboth := (hobeying t).ordered.and (hprofiled.ordered t)
  exact hboth.mono fun l l' h => h.2 h.1

/-- The names of two locks. -/
def twoNames (l : Fin 2) : Char := if l.val = 0 then 'a' else 'b'

/-- The first thread writes under one lock and goes on to the other one, while the second thread
waits to read. -/
def nestedBesideReader (t u : T) (l l' : L) : List (Act T L) :=
  [.call t l .writeLock, .run t 0, .run t 0, .run t 0, .run t 0, .run t 0, .call u l .readLock,
    .run u 0, .run u 0, .call t l' .readLock, .run t 0, .run t 0, .run u 0]

theorem debug_no_deadlock_nested :
    ∃ s, (machine Lock.twoIds twoNames true).exec {} (nestedBesideReader 0 1 0 1) = some s ∧
      wants s 1 = some 0 ∧
      ∃ u, TransGen (WaitsFor (wants s) (Has s)) 1 u ∧ wants s u = none := by
  have hend : ((machine Lock.twoIds twoNames true).check
      (fun s a s' => s'.WithinLimits ∧ s.Obeys (fun l l' => twoNames l ≠ twoNames l') a) {}
      (nestedBesideReader 0 1 0 1)).map (fun s => wants s 1) = some (some 0) := by
    decide
  obtain ⟨s, hcheck, hs⟩ := Option.map_eq_some_iff.mp hend
  have hrun := Machine.run_of_check hcheck
  refine ⟨s, hrun.exec_eq, hs, (debug_no_deadlock hrun).2 1 ?_⟩
  simp [hs]

end CppServer.Locks
