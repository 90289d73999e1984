import CppServer.Base.Progress
import CppServer.Lock.Exclusion

namespace CppServer.Lock

open Function Base

/-- A reader-writer lock as its users see it: the outstanding holds of each thread, latest first,
and the call that it is in. A call takes effect at one instant, at which it returns. -/
structure Atomic (T : Type) where
  holds : T → List Hold := fun _ => []
  op : T → Option Op := fun _ => none
  crashed : Option Cause := none

/-- A thread calls a function, returns from it, or crashes in it. -/
inductive Event (T : Type)
  | call (t : T) (op : Op)
  | ret (t : T)
  | crash (t : T) (cause : Cause)
deriving DecidableEq

namespace Atomic

section Policy

variable {T : Type}

/-- When a call may return. A writer may enter again for either kind, a reader may not become
a writer, and a writer leaves only after its reads. -/
def Admits (holds : T → List Hold) (t : T) : Op → Prop
  | .writeLock => (∀ u, u ≠ t → holds u = []) ∧ (holds t = [] ∨ .write ∈ holds t)
  | .readLock => ∀ u, u ≠ t → .write ∉ holds u
  | .writeUnlock => .read ∉ holds t
  | .readUnlock => True

/-- When a call may crash, and how: an acquisition that is not a writer's gives up, or a writer
leaves before its reads. -/
def Fails (holds : T → List Hold) (t : T) : Op → Cause → Prop
  | .writeLock, .lockTimeout | .readLock, .lockTimeout => .write ∉ holds t
  | .writeUnlock, .invalidUnlockOrder => .read ∈ holds t
  | _, _ => False

instance decidableAdmits [Fintype T] [DecidableEq T] (holds : T → List Hold) (t : T) :
    (op : Op) → Decidable (Admits holds t op)
  | .writeLock => inferInstanceAs (Decidable (_ ∧ _))
  | .readLock => inferInstanceAs (Decidable (∀ _, _))
  | .writeUnlock => inferInstanceAs (Decidable (¬ _))
  | .readUnlock => instDecidableTrue

instance decidableFails (holds : T → List Hold) (t : T) (op : Op) (cause : Cause) :
    Decidable (Fails holds t op cause) := by
  unfold Fails
  split <;> infer_instance

end Policy

variable {T : Type} [Fintype T] [DecidableEq T]

def step (s : Atomic T) : Event T → Option (Atomic T)
  | .call t op =>
    if s.crashed = none ∧ s.op t = none ∧ op.Allowed (s.holds t) then
      some { s with op := update s.op t (some op) }
    else none
  | .ret t =>
    match s.op t with
    | none => none
    | some op =>
      if s.crashed = none ∧ Admits s.holds t op then
        some { s with
          holds := update s.holds t (op.settle (s.holds t))
          op := update s.op t none }
      else none
  | .crash t cause =>
    match s.op t with
    | none => none
    | some op =>
      if s.crashed = none ∧ Fails s.holds t op cause then some { s with crashed := some cause }
      else none

/-- The atomic lock. -/
def machine (T : Type) [Fintype T] [DecidableEq T] : Machine (Atomic T) (Event T) where
  start := {}
  step := step

end Atomic

section Step

variable {lock lock' : Lock} {lThreadId : BitVec 32} {tick : BitVec 64} {pc pc' : Pc} {cause : Cause}

theorem op_eq_none_iff : pc.op = none ↔ pc = .idle := by cases pc <;> simp [Pc.op]

/-- A step that does not return stays in its call. -/
theorem op_step (hstep : Lock.step lThreadId tick lock pc = .ok (lock', pc')) (hnext : pc' ≠ .idle) :
    pc'.op = pc.op := by
  cases pc <;> simp only [Lock.step] at hstep
  all_goals
    repeat' split at hstep
    all_goals cases hstep
    all_goals first | rfl | exact absurd rfl hnext

/-- What the holds of a thread are once it waits for the lock, and once it has won it. -/
def Guest (holds : List Hold) : Pc → Prop
  | .writeLockBegin | .writeLockSpin _ _ | .writeLockTimeout _ | .readLockBegin | .readLockLoad _ _
  | .readLockSpin _ _ _ | .readLockTimeout _ => .write ∉ holds
  | .writeLockAcquired => holds = []
  | _ => True

theorem op_entry (op : Op) : op.entry.op = some op := by cases op <;> rfl

theorem guest_entry (op : Op) (holds : List Hold) : Guest holds op.entry := by
  cases op <;> trivial

/-- A thread waits only after the owner test has failed, and wins a lock that nobody has. -/
theorem guest_step {readers : ℕ} {holds : List Hold}
    (hinv : ThreadInv lock readers lThreadId.toNat pc holds) (hshared : Shared lock readers)
    (hreads : reads holds ≤ readers) (hguest : Guest holds pc)
    (hstep : Lock.step lThreadId tick lock pc = .ok (lock', pc')) :
    Guest (settled pc pc' holds) pc' := by
  have hnot (hid : ¬ lThreadId = lockThreadId lock.lockFlag) : .write ∉ holds := by
    intro hwrite
    apply hid
    rw [eq_lockThreadId_iff]
    exact hinv.owner.mpr (.inl (mem_write_iff.mp hwrite))
  cases pc <;> simp only [Lock.step] at hstep
  case writeLockSpin =>
    split at hstep
    case isTrue hempty =>
      cases hstep
      have hflag := (eq_emptyFlag_iff _).mp hempty
      have hlow : readers = 0 := by simp [← hshared.low, low, hflag]
      change holds = []
      refine holds_eq_nil ?_ (by omega)
      exact Nat.eq_zero_of_not_pos fun hpos => hguest (mem_write_iff.mpr hpos)
    case isFalse =>
      split at hstep <;> cases hstep <;> exact hguest
  all_goals
    repeat' split at hstep
    all_goals cases hstep
    all_goals first | trivial | exact hguest | exact hnot ‹_›

end Step

section Return

variable {T : Type} [Fintype T] {ids : ThreadIds T} {s : Threads T} {t u : T} {tick : BitVec 64}

/-- Beside the thread whose id is in the lock nobody has a hold. -/
theorem Inv.alone (hinv : Inv ids s) (hhigh : high s.lock = (ids.lThreadId t).toNat) (hne : u ≠ t) :
    s.holds u = [] := by
  have hnot : ¬ Owns (s.pc u) (s.holds u) := by
    rw [← (hinv.thread u).owner, hhigh]
    exact (toNat_ne hne).symm
  have hpositive := ids.positive t
  apply holds_eq_nil
  · exact Nat.eq_zero_of_not_pos fun hwrites => hnot (.inl hwrites)
  · exact (hinv.thread u).guest hnot (by omega)

/-- A lock without an id in it has no writer. -/
theorem Inv.unwritten (hinv : Inv ids s) (hhigh : high s.lock = 0) (u : T) : .write ∉ s.holds u := by
  intro hwrite
  have howner := (hinv.thread u).owner.mpr (.inl (mem_write_iff.mp hwrite))
  have hpositive := ids.positive u
  omega

/-- A writer's reads are all that the lock counts. -/
theorem Inv.readers_eq (hinv : Inv ids s) (hhigh : high s.lock = (ids.lThreadId t).toNat) :
    s.readers = reads (s.holds t) := by
  apply Finset.sum_eq_single_of_mem t (Finset.mem_univ t)
  intro u _ hne
  simp [hinv.alone hhigh hne, reads]

theorem mem_read_iff {holds : List Hold} : .read ∈ holds ↔ 0 < reads holds := by
  rw [reads, List.count_pos_iff]

/-- Whatever step a call returns by, the atomic lock admits its effect. -/
theorem Inv.admits (hinv : Inv ids s) (hguest : Guest (s.holds t) (s.pc t)) (hpc : s.pc t ≠ .idle)
    {lock' : Lock} (hstep : Lock.step (ids.lThreadId t) tick s.lock (s.pc t) = .ok (lock', .idle)) :
    ∃ op, (s.pc t).op = some op ∧ Atomic.Admits s.holds t op := by
  have hcontrol := (hinv.thread t).control
  have howner := (hinv.thread t).owner
  have hreads := Counting.le_total (fun u => reads (s.holds u)) t
  have hnoRead (hreaders : s.readers = 0) : .read ∉ s.holds t := by
    intro hread
    have hpos := mem_read_iff.mp hread
    have hle : reads (s.holds t) ≤ s.readers := hreads
    omega
  cases hcase : s.pc t <;> rw [hcase] at hcontrol howner hstep hguest <;>
    simp only [Lock.step] at hstep
  case idle => exact absurd hcase hpc
  case writeLockReenter =>
    have hhigh := howner.mpr (.inl hcontrol)
    exact ⟨_, rfl, fun u hne => hinv.alone hhigh hne, .inr (mem_write_iff.mpr hcontrol)⟩
  case writeLockAcquired =>
    exact ⟨_, rfl, fun u hne => hinv.alone (howner.mpr (.inr rfl)) hne, .inl hguest⟩
  case writeUnlockCount => exact ⟨_, rfl, hnoRead hcontrol.2⟩
  case writeUnlockStore => exact ⟨_, rfl, hnoRead hcontrol.2.1⟩
  case readLockReenter =>
    have hhigh := howner.mpr (.inl hcontrol)
    exact ⟨_, rfl, fun u hne => by simp [hinv.alone hhigh hne]⟩
  case readLockSpin beginTick spinCount expected =>
    refine ⟨_, rfl, fun u _ => hinv.unwritten ?_ u⟩
    split at hstep
    case isTrue hequal =>
      subst hequal
      exact Nat.div_eq_of_lt hcontrol
    case isFalse => split at hstep <;> cases hstep
  case readUnlockSub => exact ⟨_, rfl, trivial⟩
  all_goals
    repeat' split at hstep
    all_goals cases hstep

/-- Whatever step a call crashes at, the atomic lock allows it to fail so. -/
theorem Inv.fails (hinv : Inv ids s) (hguest : Guest (s.holds t) (s.pc t)) {cause : Cause}
    (hstep : Lock.step (ids.lThreadId t) tick s.lock (s.pc t) = .error cause) :
    ∃ op, (s.pc t).op = some op ∧ Atomic.Fails s.holds t op cause := by
  have hcontrol := (hinv.thread t).control
  have howner := (hinv.thread t).owner
  have hlow := hinv.shared.low
  have hreads : reads (s.holds t) ≤ s.readers := Counting.le_total (fun u => reads (s.holds u)) t
  cases hcase : s.pc t <;> rw [hcase] at hcontrol howner hstep hguest <;>
    simp only [Lock.step] at hstep
  case writeLockTimeout | readLockTimeout =>
    split at hstep <;> cases hstep
    exact ⟨_, rfl, hguest⟩
  case writeUnlockCheck =>
    split at hstep <;> cases hstep
    case isTrue hcount =>
      refine ⟨_, rfl, mem_read_iff.mpr ?_⟩
      have hhigh := howner.mpr (.inl (writes_pos_of_head hcontrol))
      rw [← hinv.readers_eq hhigh, ← hlow]
      exact Nat.pos_of_ne_zero fun hzero => hcount ((readCount_eq_zero_iff _).mpr hzero)
  case readUnlockSub =>
    split at hstep <;> cases hstep
    case isTrue hcount =>
      obtain ⟨rest, hrest⟩ := List.head?_eq_some_iff.mp hcontrol
      have hzero : low s.lock = 0 := (readCount_eq_zero_iff _).mp hcount
      rw [hrest, reads_read] at hreads
      omega
  all_goals
    repeat' split at hstep
    all_goals cases hstep

end Return

variable {T : Type} [Fintype T] [DecidableEq T]

/-- What the atomic lock sees of a step: the call, and where it returns or crashes. -/
def observe (_ : Threads T) : Act T → Threads T → Option (Event T)
  | .call t op, _ => some (.call t op)
  | .run t _, s' =>
    match s'.crashed with
    | some cause => some (.crash t cause)
    | none => if s'.pc t = .idle then some (.ret t) else none

/-- The lock in its steps and the atomic lock have the same holds. -/
structure Refines (ids : ThreadIds T) (s : Threads T) (a : Atomic T) : Prop where
  inv : Inv ids s
  limits : s.WithinLimits
  guest : ∀ t, Guest (s.holds t) (s.pc t)
  holds : a.holds = s.holds
  op : ∀ t, a.op t = (s.pc t).op
  crashed : a.crashed = s.crashed

variable {ids : ThreadIds T} {s s' : Threads T} {a : Atomic T} {t : T}

theorem guests_step (hinv : Inv ids s) (hguest : ∀ u, Guest (s.holds u) (s.pc u)) {act : Act T}
    (hstep : Threads.step ids s act = some s') (u : T) : Guest (s'.holds u) (s'.pc u) := by
  cases act with
  | call t op =>
    obtain ⟨-, -, -, rfl⟩ := Threads.step_call hstep
    change Guest (s.holds u) (update s.pc t op.entry u)
    by_cases hu : u = t
    · subst hu
      rw [update_self]
      exact guest_entry op _
    · rw [update_of_ne hu]
      exact hguest u
  | run t tick =>
    obtain ⟨-, -, ⟨_, -, rfl⟩ | ⟨lock', pc', hlock, rfl⟩⟩ := Threads.step_run hstep
    · exact hguest u
    · have hreads : reads (s.holds t) ≤ s.readers :=
        Counting.le_total (fun u => reads (s.holds u)) t
      by_cases hu : u = t
      · subst hu
        simpa only [update_self] using
          guest_step (hinv.thread u) hinv.shared hreads (hguest u) hlock
      · simpa only [update_of_ne hu] using hguest u

/-- A call of the code is the call of the atomic lock. -/
theorem Refines.call (hrefines : Refines ids s a) {op : Op}
    (hstep : Threads.step ids s (.call t op) = some s') (hlimits : s'.WithinLimits) :
    ∃ a', Atomic.step a (.call t op) = some a' ∧ Refines ids s' a' := by
  have hwrap : s.NoWrap (.call t op) := trivial
  have hinv := inv_step hrefines.inv hwrap hstep
  have hguests := guests_step hrefines.inv hrefines.guest hstep
  obtain ⟨hcrashed, hidle, hallowed, rfl⟩ := Threads.step_call hstep
  have hop : a.op t = none := by rw [hrefines.op, hidle]; rfl
  have henabled : a.crashed = none ∧ a.op t = none ∧ op.Allowed (a.holds t) :=
    ⟨hrefines.crashed.trans hcrashed, hop, by rwa [hrefines.holds]⟩
  refine ⟨_, if_pos henabled, hinv, hlimits, hguests, hrefines.holds, fun u => ?_,
    hrefines.crashed⟩
  change update a.op t (some op) u = (update s.pc t op.entry u).op
  by_cases hu : u = t
  · subst hu
    rw [update_self, update_self, op_entry]
  · rw [update_of_ne hu, update_of_ne hu]
    exact hrefines.op u

/-- A step inside a call is silent, or the return, or the crash of the call. -/
theorem Refines.run (hrefines : Refines ids s a) {tick : BitVec 64}
    (hstep : Threads.step ids s (.run t tick) = some s') (hlimits : s'.WithinLimits) :
    match observe s (.run t tick) s' with
    | none => Refines ids s' a
    | some event => ∃ a', Atomic.step a event = some a' ∧ Refines ids s' a' := by
  have hwrap := noWrap_of_withinLimits hrefines.limits hlimits hstep
  have hinv := inv_step hrefines.inv hwrap hstep
  have hguests := guests_step hrefines.inv hrefines.guest hstep
  obtain ⟨hcrashed, hpc, ⟨cause, herror, rfl⟩ | ⟨lock', pc', hlock, rfl⟩⟩ := Threads.step_run hstep
  · obtain ⟨op, hop, hfails⟩ := hrefines.inv.fails (hrefines.guest t) herror
    refine ⟨{ a with crashed := some cause }, ?_, hinv, hlimits, hrefines.guest, hrefines.holds,
      hrefines.op, rfl⟩
    rw [← hrefines.holds] at hfails
    simp only [Atomic.step, hrefines.op t, hop]
    exact if_pos ⟨hrefines.crashed.trans hcrashed, hfails⟩
  · simp only [hcrashed] at hinv hlimits
    simp only [observe, hcrashed, update_self]
    by_cases hreturn : pc' = .idle
    · subst hreturn
      obtain ⟨op, hop, hadmits⟩ := hrefines.inv.admits (hrefines.guest t) hpc hlock
      have hsettled : settled (s.pc t) .idle (s.holds t) = op.settle (s.holds t) := by
        simp only [settled, hop]
      rw [if_pos rfl]
      rw [← hrefines.holds] at hadmits
      refine ⟨{ a with
          holds := update a.holds t (op.settle (a.holds t))
          op := update a.op t none }, ?_, hinv, hlimits, hguests, ?_, fun u => ?_,
        hrefines.crashed.trans hcrashed⟩
      · simp only [Atomic.step, hrefines.op t, hop]
        exact if_pos ⟨hrefines.crashed.trans hcrashed, hadmits⟩
      · simp only [hrefines.holds, hsettled]
      · by_cases hu : u = t
        · subst hu
          simp only [update_self]
          rfl
        · simpa only [update_of_ne hu] using hrefines.op u
    · rw [if_neg hreturn]
      refine ⟨hinv, hlimits, hguests, ?_, fun u => ?_, hrefines.crashed.trans hcrashed⟩
      · simp only [settled_of_ne _ hreturn, update_eq_self]
        exact hrefines.holds
      · by_cases hu : u = t
        · subst hu
          simp only [update_self, op_step hlock hreturn]
          exact hrefines.op u
        · simpa only [update_of_ne hu] using hrefines.op u

theorem simulation_atomic (ids : ThreadIds T) :
    Machine.Simulation (machine ids) (Atomic.machine T) (fun _ _ s' => s'.WithinLimits) observe
      (Refines ids) where
  start := by
    refine ⟨inv_start ids, ?_, fun t => trivial, rfl, fun t => rfl, rfl⟩
    exact ⟨by simp [machine, Threads.readers, reads], by simp [machine, writes]⟩
  step s b s' a hrefines hlimits hstep := by
    cases b with
    | call t op => exact hrefines.call hstep hlimits
    | run t tick =>
      have hrun := hrefines.run hstep hlimits
      cases hobserve : observe s (.run t tick) s' with
      | none =>
        rw [hobserve] at hrun
        exact hrun
      | some event =>
        rw [hobserve] at hrun
        exact hrun

/-- `Lock` is an atomic reader-writer lock. Under every interleaving of the functions' steps each
call takes effect at the instant of its return, where its effect is admitted by the policy of the
lock, and each crash is one that the policy allows. -/
theorem refines_readerWriter {as : List (Act T)}
    (hrun : (machine ids).Run (fun _ _ s' => s'.WithinLimits) as s) :
    ∃ a, (Atomic.machine T).Run Machine.Any ((machine ids).trace observe (machine ids).start as) a ∧
      a.holds = s.holds ∧ (∀ t, a.op t = (s.pc t).op) ∧ a.crashed = s.crashed := by
  obtain ⟨a, hatomic, hrefines⟩ := (simulation_atomic ids).run hrun
  exact ⟨a, hatomic, hrefines.holds, hrefines.op, hrefines.crashed⟩

/-- A reader waits while a writer comes and goes. -/
def handover (t u : T) : List (Act T) :=
  [.call t .writeLock, .call u .readLock, .run t 0, .run t 0, .run t 0, .run t 0, .run u 0, .run u 0,
    .run u 0, .run u 0, .call t .writeUnlock, .run t 0, .run t 0, .run t 0, .run u 0, .run u 0]

theorem refines_readerWriter_handover :
    ∃ a, (Atomic.machine (Fin 2)).Run Machine.Any
        [.call 0 .writeLock, .call 1 .readLock, .ret 0, .call 0 .writeUnlock, .ret 0, .ret 1] a ∧
      a.holds 0 = [] ∧ a.holds 1 = [.read] := by
  have hend : ((machine twoIds).check (fun _ _ s' => s'.WithinLimits) (machine twoIds).start
      (handover 0 1)).map (fun s => (s.holds 0, s.holds 1)) = some ([], [.read]) := by
    decide
  obtain ⟨s, hcheck, hs⟩ := Option.map_eq_some_iff.mp hend
  obtain ⟨hfirst, hsecond⟩ := Prod.mk.inj hs
  obtain ⟨a, hrun, hholds, -, -⟩ := refines_readerWriter (Machine.run_of_check hcheck)
  have htrace : (machine twoIds).trace observe (machine twoIds).start (handover 0 1) =
      [.call 0 .writeLock, .call 1 .readLock, .ret 0, .call 0 .writeUnlock, .ret 0, .ret 1] := by
    decide
  rw [htrace] at hrun
  exact ⟨a, hrun, by rw [hholds, hfirst], by rw [hholds, hsecond]⟩

/-- Of a thread that is in `WriteLock` with nothing but read holds. -/
def Upgrading (s : Threads T) (t : T) : Prop :=
  (s.pc t).op = some .writeLock ∧ .read ∈ s.holds t ∧ .write ∉ s.holds t

omit [DecidableEq T] in
/-- Nobody can have the lock for writing beside such a thread. -/
theorem Inv.unwritten_of_upgrading (hinv : Inv ids s) (hup : Upgrading s t) (u : T) :
    .write ∉ s.holds u := by
  intro hwrite
  by_cases hu : t = u
  · subst hu
    exact hup.2.2 hwrite
  · have hnone := hinv.exclusive (Ne.symm hu) hwrite
    rw [Upgrading, hnone] at hup
    exact absurd hup.2.1 List.not_mem_nil

theorem Upgrading.step (hinv : Inv ids s) (hguest : Guest (s.holds t) (s.pc t)) (hup : Upgrading s t)
    {act : Act T} (hstep : Threads.step ids s act = some s') :
    Upgrading s' t ∧ s'.holds t = s.holds t := by
  obtain ⟨hop, hread, hwrite⟩ := id hup
  cases act with
  | call u op =>
    obtain ⟨-, hidle, -, rfl⟩ := Threads.step_call hstep
    refine ⟨⟨?_, hread, hwrite⟩, rfl⟩
    have hne : t ≠ u := by
      rintro rfl
      rw [hidle] at hop
      cases hop
    simpa only [update_of_ne hne] using hop
  | run u tick =>
    obtain ⟨-, hpc, ⟨cause, -, rfl⟩ | ⟨lock', pc', hlock, rfl⟩⟩ := Threads.step_run hstep
    · exact ⟨hup, rfl⟩
    by_cases hu : t = u
    · subst hu
      have hstay : pc' ≠ .idle := by
        -- the return of `WriteLock` would not be admitted
        rintro rfl
        obtain ⟨op, hop', hadmits⟩ := hinv.admits hguest hpc hlock
        rw [hop] at hop'
        cases hop'
        rcases hadmits.2 with hnone | hmem
        · rw [hnone] at hread
          exact List.not_mem_nil hread
        · exact hwrite hmem
      simp only [Upgrading, update_self, settled_of_ne _ hstay, op_step hlock hstay]
      exact ⟨hup, trivial⟩
    · simp only [Upgrading, update_of_ne hu]
      exact ⟨hup, trivial⟩

omit [Fintype T] [DecidableEq T] in
/-- The only failure of `WriteLock`. -/
theorem error_of_writeLock {lThreadId : BitVec 32} {tick : BitVec 64} {lock : Lock} {pc : Pc}
    {cause : Cause} (hop : pc.op = some .writeLock)
    (hstep : Lock.step lThreadId tick lock pc = .error cause) : cause = .lockTimeout := by
  cases pc <;> simp only [Pc.op, Option.some.injEq, reduceCtorEq] at hop
  all_goals
    simp only [Lock.step] at hstep
    repeat' split at hstep
    all_goals cases hstep
    all_goals rfl

/-- The policy R -> W (x). A thread that calls `WriteLock` while it has read holds only never
returns from it, whatever the others do and for as long as the run goes on, and nobody becomes a
writer until then. Where a step of the thread fails, the lock has timed out. -/
theorem upgrade_never_returns {as bs : List (Act T)}
    (hexec : (machine ids).exec (machine ids).start as = some s) (hup : Upgrading s t)
    (hrun : (machine ids).Run (fun _ _ s' => s'.WithinLimits) (as ++ bs) s') :
    Upgrading s' t ∧ s'.holds t = s.holds t ∧ (∀ u, .write ∉ s'.holds u) ∧
      ∀ tick r, Threads.step ids s' (.run t tick) = some r → r.crashed ≠ none →
        r.crashed = some .lockTimeout := by
  have hstable : Upgrading s' t ∧ s'.holds t = s.holds t := by
    refine hrun.stable (P := fun r => Upgrading r t ∧ r.holds t = s.holds t) ?_ hexec ⟨hup, rfl⟩
    intro cs r act r' hbefore hr _ hstep
    obtain ⟨_, -, hrefines⟩ := (simulation_atomic ids).run hbefore
    obtain ⟨hup', hholds⟩ := hr.1.step hrefines.inv (hrefines.guest t) hstep
    exact ⟨hup', hholds.trans hr.2⟩
  refine ⟨hstable.1, hstable.2, (withinLimits_run hrun).1.unwritten_of_upgrading hstable.1, ?_⟩
  intro tick r hstep hcrashed
  obtain ⟨hbefore, -, ⟨cause, herror, rfl⟩ | ⟨lock, pc, -, rfl⟩⟩ := Threads.step_run hstep
  · exact congrArg some (error_of_writeLock hstable.1.1 herror)
  · exact absurd hbefore hcrashed

theorem upgrade_never_returns_beside_reader :
    ∃ s, (machine twoIds).exec (machine twoIds).start ([.call 0 .readLock, .run 0 0, .run 0 0,
        .run 0 0, .run 0 0, .call 0 .writeLock, .run 0 0, .run 0 0, .run 0 0, .call 1 .readLock,
        .run 1 0, .run 1 0, .run 1 0, .run 1 0, .call 1 .readUnlock, .run 1 0, .run 0 0]) = some s ∧
      Upgrading s 0 ∧ s.holds 1 = [] := by
  let before : List (Act (Fin 2)) :=
    [.call 0 .readLock, .run 0 0, .run 0 0, .run 0 0, .run 0 0, .call 0 .writeLock]
  let after : List (Act (Fin 2)) :=
    [.run 0 0, .run 0 0, .run 0 0, .call 1 .readLock, .run 1 0, .run 1 0, .run 1 0, .run 1 0,
      .call 1 .readUnlock, .run 1 0, .run 0 0]
  have hbefore : ((machine twoIds).exec (machine twoIds).start before).map
      (fun s => (s.pc 0, s.holds 0)) = some (.writeLockOwner, [.read]) := by
    decide
  have hafter : ((machine twoIds).check (fun _ _ s' => s'.WithinLimits) (machine twoIds).start
      (before ++ after)).map (fun s => s.holds 1) = some [] := by
    decide
  obtain ⟨s, hexec, hs⟩ := Option.map_eq_some_iff.mp hbefore
  obtain ⟨s', hcheck, hs'⟩ := Option.map_eq_some_iff.mp hafter
  obtain ⟨hpc, hholds⟩ := Prod.mk.inj hs
  have hup : Upgrading s 0 := by
    rw [Upgrading, hpc, hholds]
    decide
  have hrun := Machine.run_of_check hcheck
  exact ⟨s', hrun.exec_eq, (upgrade_never_returns hexec hup hrun).1, hs'⟩

end CppServer.Lock
