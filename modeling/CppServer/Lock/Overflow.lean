import CppServer.Lock.Exclusion

namespace CppServer.Lock

open Function Base

variable {T : Type} [DecidableEq T] [Fintype T]

/-- The counters stay out of the ownership decision in this step of `t`:
acquiring a read hold leaves the upper half of the flag alone, and a
`WriteUnlock` inside another write hold leaves the flag nonempty. -/
def CountersContained (s : Threads T) (t : T) (s' : Threads T) : Prop :=
  (s'.holds t = .read :: s.holds t → high s'.lock = high s.lock) ∧
    ((s.pc t).op = some .writeUnlock → 1 < writes (s.holds t) → s'.lock.lockFlag ≠ emptyFlag)

/-- The same for the step and, when it is the decrement of a `WriteUnlock`
that found zero, for the store that the call takes next. -/
def CallContained (ids : ThreadIds T) (s : Threads T) (t : T) (s' : Threads T) : Prop :=
  CountersContained s t s' ∧ ∀ tick next, s'.pc t = .writeUnlockStore →
    (machine ids).step s' (.run t tick) = some next → CountersContained s' t next

theorem lockFlag_ne_empty {lock : Lock} (hhigh : high lock ≠ 0) : lock.lockFlag ≠ emptyFlag := by
  intro h
  apply hhigh
  rw [high, (eq_emptyFlag_iff _).mp h]

/-- Only returning from `ReadLock` adds a read hold. -/
theorem op_of_settled_read {pc pc' : Pc} {holds : List Hold}
    (hread : settled pc pc' holds = .read :: holds) : pc' = .idle ∧ pc.op = some .readLock := by
  have hself : holds ≠ .read :: holds := (List.cons_ne_self .read holds).symm
  have htail : holds.tail ≠ .read :: holds := by
    intro h
    have hlength := congrArg List.length h
    simp only [List.length_tail, List.length_cons] at hlength
    omega
  by_cases hidle : pc' = .idle
  · subst hidle
    cases hop : pc.op with
    | none => simp [settled, hop] at hread
    | some op =>
      simp only [settled, hop] at hread
      cases op with
      | readLock => exact ⟨rfl, rfl⟩
      | writeLock => cases List.head_eq_of_cons_eq hread
      | writeUnlock => exact absurd hread htail
      | readUnlock => exact absurd hread htail
  · rw [settled_of_ne holds hidle] at hread
    exact absurd hread hself

/-- The two steps that acquire a read hold, the owner's `fetch_add` and the
successful exchange, both add one to the whole flag. -/
theorem lock_of_settled_read {lock lock' : Lock} {lThreadId : BitVec 32} {tick : BitVec 64}
    {pc pc' : Pc} {holds : List Hold}
    (hstep : Lock.step lThreadId tick lock pc = .ok (lock', pc'))
    (hread : settled pc pc' holds = .read :: holds) :
    lock' = { lock with lockFlag := lock.lockFlag + 1 } := by
  obtain ⟨rfl, hop⟩ := op_of_settled_read hread
  cases pc with
  | readLockReenter =>
    cases hstep
    rfl
  | readLockSpin beginTick spinCount expected =>
    simp only [Lock.step] at hstep
    split at hstep
    case isTrue hequal =>
      cases hstep
      rw [hequal]
    case isFalse => split at hstep <;> simp at hstep
  | readLockOwner =>
    simp only [Lock.step] at hstep
    split at hstep <;> simp at hstep
  | readLockTimeout beginTick =>
    simp only [Lock.step] at hstep
    split at hstep <;> simp at hstep
  | readLockBegin => simp [Lock.step] at hstep
  | readLockLoad beginTick spinCount => simp [Lock.step] at hstep
  | _ => simp [Pc.op] at hop

/-- A read acquisition leaves the owner's half alone exactly when the count's
half has room for it. -/
theorem read_acquisition_contained_iff {lock lock' : Lock} {lThreadId : BitVec 32}
    {tick : BitVec 64} {pc pc' : Pc} {holds : List Hold}
    (hstep : Lock.step lThreadId tick lock pc = .ok (lock', pc'))
    (hread : settled pc pc' holds = .read :: holds) :
    high lock' = high lock ↔ low lock < 65535 := by
  rw [lock_of_settled_read hstep hread]
  have hlow : low lock < 65536 := Nat.mod_lt _ (by decide)
  constructor
  · intro hsame
    by_contra hfull
    have hcarry := (fields_add_one_full lock (by omega)).1
    omega
  · exact fun hroom => (fields_add_one lock hroom).1

/-- A `WriteUnlock` that starts at a depth congruent to one counts down to
zero, whatever the depth is, and goes on to store the empty flag. -/
theorem unlock_empties_iff {lock : Lock} (lThreadId : BitVec 32) (tick : BitVec 64) {depth : ℕ}
    (hdepth : lock.writeCount.toNat = depth % 65536) :
    (∃ lock', Lock.step lThreadId tick lock .writeUnlockCount = .ok (lock', .writeUnlockStore)) ↔
      depth % 65536 = 1 := by
  have hzero : lock.writeCount - 1 = 0 ↔ depth % 65536 = 1 := by
    rw [← BitVec.toNat_inj, count_sub_one, hdepth]
    change _ = 0 ↔ _
    omega
  simp [Lock.step, ← hzero]

theorem writes_settled_ge {pc : Pc} (pc' : Pc) (holds : List Hold)
    (hop : pc.op = some .writeUnlock) :
    writes holds ≤ writes (settled pc pc' holds) + 1 := by
  by_cases hidle : pc' = .idle
  · subst hidle
    simp only [settled, hop, Op.settle]
    cases holds with
    | nil => simp
    | cons hold rest => cases hold <;> simp
  · rw [settled_of_ne holds hidle]
    omega

theorem counters_contained_of_noWrap {ids : ThreadIds T} {s s' : Threads T} {t : T}
    {tick : BitVec 64} (hinv : Inv ids s) (hwrap : s.NoWrap (.run t tick))
    (hstep : Threads.step ids s (.run t tick) = some s') : CountersContained s t s' := by
  have hinv' := inv_step hinv hwrap hstep
  have hpositive := ids.positive t
  obtain ⟨_, _, ⟨cause, _, rfl⟩ | ⟨lock', pc', hlock, rfl⟩⟩ := Threads.step_run hstep
  · refine ⟨fun _ => rfl, fun _ hnested => lockFlag_ne_empty ?_⟩
    rw [(hinv.thread t).owner.mpr (.inl (by omega))]
    omega
  · constructor
    · intro hread
      simp only [update_self] at hread
      rw [read_acquisition_contained_iff hlock hread, hinv.shared.low]
      have hlow' : low lock' = ∑ u, reads (update s.holds t (.read :: s.holds t) u) := by
        rw [← hread]
        exact hinv'.shared.low
      have hreaders := readers_update s t (.read :: s.holds t)
      have hbound : low lock' < 65536 := Nat.mod_lt _ (by decide)
      simp only [reads_read] at hreaders
      omega
    · intro hop hnested
      have hge := writes_settled_ge pc' (s.holds t) hop
      have howner := (hinv'.thread t).owner
      simp only [update_self] at howner
      apply lockFlag_ne_empty
      rw [howner.mpr (.inl (by omega))]
      omega

/-- A step that wraps a counter lets it reach the ownership decision. -/
theorem not_callContained_of_wrap {ids : ThreadIds T} {s s' : Threads T} {t : T}
    {tick : BitVec 64} (hinv : Inv ids s) (hwrap : ¬ s.NoWrap (.run t tick))
    (hstep : Threads.step ids s (.run t tick) = some s') : ¬ CallContained ids s t s' := by
  rintro ⟨hcontained, hnext⟩
  obtain ⟨hcrashed, _, hcases⟩ := Threads.step_run hstep
  have hread {lock' : Lock} {pc' : Pc}
      (hlock : Lock.step (ids.lThreadId t) tick s.lock (s.pc t) = .ok (lock', pc'))
      (hsettled : settled (s.pc t) pc' (s.holds t) = .read :: s.holds t) : s.readers < 65535 := by
    obtain ⟨_, herror, _⟩ | ⟨_, _, hok, rfl⟩ := hcases
    · rw [herror] at hlock
      cases hlock
    · rw [hok] at hlock
      cases hlock
      rw [← hinv.shared.low, ← read_acquisition_contained_iff hok hsettled]
      exact hcontained.1 (by simpa only [update_self] using hsettled)
  simp only [Threads.NoWrap] at hwrap
  cases hpc : s.pc t with
  | readLockReenter =>
    rw [hpc] at hwrap hread
    exact hwrap (hread rfl rfl)
  | readLockSpin beginTick spinCount expected =>
    rw [hpc] at hwrap hread
    simp only [NoWrap, not_forall] at hwrap
    obtain ⟨hequal, hfull⟩ := hwrap
    exact hfull (hread (by simp only [Lock.step, if_pos hequal]; rfl) rfl)
  | writeUnlockCount =>
    have hthread := hinv.thread t
    rw [hpc] at hwrap hcases hthread
    simp only [NoWrap, not_forall] at hwrap
    obtain ⟨hone, hnested⟩ := hwrap
    have hdepth := hthread.depth (.inl (by omega))
    obtain ⟨lock', hempties⟩ := (unlock_empties_iff (ids.lThreadId t) tick hdepth).mpr hone
    obtain ⟨_, herror, _⟩ | ⟨_, _, hok, rfl⟩ := hcases
    · rw [hempties] at herror
      cases herror
    · rw [hempties] at hok
      cases hok
      have hstore := hnext 0 _ (by simp only [update_self])
        (by simp only [machine, Threads.step, hcrashed, update_self]; rfl)
      exact hstore.2 (by simp only [update_self]; rfl)
        (by simp only [update_self, settled_of_ne _ (show Pc.writeUnlockStore ≠ .idle by simp)]
            omega) rfl
  | _ => exact hwrap (by rw [hpc]; trivial)

/-- As long as no counter of the lock has wrapped, a thread's next step keeps
the counters out of the ownership decision if and only if it wraps none. -/
theorem counters_contained_iff {ids : ThreadIds T} {as : List (Act T)} {s s' : Threads T} {t : T}
    {tick : BitVec 64} (hrun : (machine ids).Run (fun s a _ => s.NoWrap a) as s)
    (hstep : (machine ids).step s (.run t tick) = some s') :
    CallContained ids s t s' ↔ s.NoWrap (.run t tick) := by
  have hinv := inv_run hrun
  constructor
  · intro hcontained
    by_contra hwrap
    exact not_callContained_of_wrap hinv hwrap hstep hcontained
  · intro hwrap
    refine ⟨counters_contained_of_noWrap hinv hwrap hstep, fun tick' next hstore hnext => ?_⟩
    have hwrap' : s'.NoWrap (.run t tick') := by
      rw [Threads.NoWrap, hstore]
      trivial
    exact counters_contained_of_noWrap (inv_step hinv hwrap hstep) hwrap' hnext

/-- A single thread, whose id is not 1. -/
def secondThread : ThreadIds Unit where
  lThreadId _ := 2
  positive := by decide
  narrow := by decide
  injective := by decide

/-- A call of `ReadLock` on a lock without an owner, up to its exchange. -/
def readCall : List (Act Unit) := [.call () .readLock, .run () 0, .run () 0, .run () 0]

/-- The thread after `n` nested calls of `ReadLock`. -/
def nestedReads (n : ℕ) : Threads Unit where
  lock := { lockFlag := BitVec.ofNat 32 n }
  holds := fun _ => List.replicate n .read

theorem nestedReads_holds (n : ℕ) :
    (nestedReads (n + 1)).holds () = .read :: (nestedReads n).holds () :=
  List.replicate_succ

theorem readCall_exec {n : ℕ} (hn : n ≤ 65535) :
    (machine secondThread).exec (nestedReads n) readCall =
      some { nestedReads n with pc := fun _ => .readLockSpin 0 0 (BitVec.ofNat 32 n) } := by
  have hflag : (BitVec.ofNat 32 n).toNat = n := by
    rw [BitVec.toNat_ofNat]
    omega
  have howner : ¬ 2#32 = lockThreadId (BitVec.ofNat 32 n) := by
    rw [eq_lockThreadId_iff, hflag]
    change ¬ n / 65536 = 2
    omega
  have hexpected : readCount (BitVec.ofNat 32 n) = BitVec.ofNat 32 n := by
    rw [← BitVec.toNat_inj, readCount_toNat, hflag]
    omega
  have hupdate (f : Unit → Pc) (pc : Pc) : update f () pc = fun _ => pc := by
    funext u
    rw [Subsingleton.elim u (), update_self]
  simp [Machine.exec, machine, readCall, Threads.step, nestedReads, Op.Allowed, Op.entry,
    Lock.step, secondThread, howner, hexpected, hupdate, settled]

theorem readExchange_step (n : ℕ) :
    (machine secondThread).step
        { nestedReads n with pc := fun _ => .readLockSpin 0 0 (BitVec.ofNat 32 n) } (.run () 0) =
      some (nestedReads (n + 1)) := by
  have hpc (f : Unit → Pc) (pc : Pc) : update f () pc = fun _ => pc := by
    funext u
    rw [Subsingleton.elim u (), update_self]
  have hholds (f : Unit → List Hold) (holds : List Hold) : update f () holds = fun _ => holds := by
    funext u
    rw [Subsingleton.elim u (), update_self]
  simp [machine, Threads.step, nestedReads, Lock.step, hpc, hholds, settled, Pc.op, Op.settle,
    List.replicate_succ, BitVec.ofNat_add]

theorem nestedReads_run {n : ℕ} (hn : n ≤ 65535) :
    (machine secondThread).Run Machine.Any
      (List.replicate n (readCall ++ [Act.run () 0])).flatten (nestedReads n) := by
  induction n with
  | zero => exact .start
  | succ n ih =>
    rw [List.replicate_succ', List.flatten_append, List.flatten_singleton, ← List.append_assoc]
    exact ((ih (by omega)).append_exec (readCall_exec (by omega))).snoc trivial (readExchange_step n)

instance (lock : Lock) (readers : ℕ) (holds : List Hold) :
    (pc : Pc) → Decidable (Lock.NoWrap lock readers holds pc)
  | .readLockReenter => inferInstanceAs (Decidable (readers < 65535))
  | .readLockSpin _ _ expected => inferInstanceAs (Decidable (lock.lockFlag = expected → _))
  | .writeUnlockCount => inferInstanceAs (Decidable (writes holds % 65536 = 1 → _))
  | .idle | .writeLockOwner | .writeLockReenter | .writeLockBegin | .writeLockSpin ..
  | .writeLockAcquired | .writeLockTimeout _ | .writeUnlockCheck | .writeUnlockStore
  | .readLockOwner | .readLockBegin | .readLockLoad .. | .readLockTimeout _ | .readUnlockSub =>
    isTrue trivial

instance (s : Threads T) : (a : Act T) → Decidable (s.NoWrap a)
  | .call _ _ => isTrue trivial
  | .run t _ => inferInstanceAs (Decidable (Lock.NoWrap s.lock s.readers (s.holds t) (s.pc t)))

/-- A writer's re-entry for reading, at its `fetch_add`. -/
theorem counters_contained_reentry :
    ∃ s s', (machine secondThread).step s (.run () 0) = some s' ∧
      s'.holds () = [.read, .write] ∧ CallContained secondThread s () s' := by
  let as : List (Act Unit) :=
    [.call () .writeLock, .run () 0, .run () 0, .run () 0, .run () 0, .call () .readLock, .run () 0]
  have hend : ((machine secondThread).check (fun s a _ => s.NoWrap a)
      (machine secondThread).start as).map (fun s => (decide (s.NoWrap (.run () 0)),
        ((machine secondThread).step s (.run () 0)).map fun s' => s'.holds ())) =
      some (true, some [.read, .write]) := by
    decide
  obtain ⟨s, hcheck, hs⟩ := Option.map_eq_some_iff.mp hend
  obtain ⟨hwrap, hs'⟩ := Prod.mk.inj hs
  obtain ⟨s', hstep, hholds⟩ := Option.map_eq_some_iff.mp hs'
  exact ⟨s, s', hstep, hholds,
    (counters_contained_iff (Machine.run_of_check hcheck) hstep).mpr (of_decide_eq_true hwrap)⟩

/-- The 65536th nested `ReadLock` of a thread carries out of the read count:
the flag then names thread 1, which holds nothing, as the owner. -/
theorem reads_overflow_into_owner :
    ∃ s s', (machine secondThread).Run Machine.Any
        ((List.replicate 65535 (readCall ++ [.run () 0])).flatten ++ readCall) s ∧
      (machine secondThread).step s (.run () 0) = some s' ∧
      high s.lock = 0 ∧ high s'.lock = 1 ∧ ¬ CallContained secondThread s () s' := by
  have hrun := (nestedReads_run (le_refl 65535)).append_exec (readCall_exec (le_refl 65535))
  have hbefore : high (nestedReads 65535).lock = 0 := by decide
  have hafter : high (nestedReads 65536).lock = 1 := by decide
  refine ⟨_, _, hrun, readExchange_step 65535, hbefore, hafter, fun hcontained => ?_⟩
  have hsame : high (nestedReads 65536).lock = high (nestedReads 65535).lock :=
    hcontained.1.1 (nestedReads_holds 65535)
  rw [hbefore, hafter] at hsame
  cases hsame

end CppServer.Lock
