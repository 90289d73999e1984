import CppServer.Base.Projection
import CppServer.Lock.Superfluous
import CppServer.ThreadManager

namespace CppServer.Lock

open Function Base

/-- A lock and the threads that are launched to use it, each under the `LThreadId` that its
`InitTLS` gave it. -/
structure Process where
  manager : ThreadManager := {}
  threads : Threads ℕ := {}

namespace Process

inductive Act
  | manager (a : ThreadManager.Act)
  | thread (a : Lock.Act ℕ)
deriving DecidableEq

/-- A step of a thread whose `LThreadId` is given. -/
def run {T : Type} [DecidableEq T] (lThreadId : BitVec 32) (s : Threads T) :
    Lock.Act T → Option (Threads T)
  | .call t op =>
    if s.crashed = none ∧ s.pc t = .idle ∧ op.Allowed (s.holds t) then
      some { s with pc := update s.pc t op.entry }
    else none
  | .run t tick =>
    if s.crashed = none ∧ s.pc t ≠ .idle then
      match Lock.step lThreadId tick s.lock (s.pc t) with
      | .error cause => some { s with crashed := some cause }
      | .ok (lock, pc) =>
        some { s with
          lock := lock
          pc := update s.pc t pc
          holds := update s.holds t (settled (s.pc t) pc (s.holds t)) }
    else none

theorem run_eq_step {T : Type} [DecidableEq T] (ids : ThreadIds T) (s : Threads T) (a : Lock.Act T) :
    run (ids.lThreadId a.thread) s a = Threads.step ids s a := by
  cases a with
  | call t op => rfl
  | run t tick => rfl

def step (s : Process) : Act → Option Process
  -- a callback launches and returns outside of the lock's functions
  | .manager a =>
    match a with
    | .launch t | .finish t =>
      if s.threads.pc t = .idle then (s.manager.step a).map ({ s with manager := · }) else none
    | .initTLS _ => (s.manager.step a).map ({ s with manager := · })
  | .thread a =>
    match s.manager.threads[a.thread]? with
    | some (.running lThreadId) => (run lThreadId s.threads a).map ({ s with threads := · })
    | _ => none

def machine : Machine Process Act where
  start := {}
  step := step

/-- At most 65535 read holds in total, and write holds nested at most 65535 deep. -/
def WithinLimits (s : Process) : Prop :=
  (∀ ts : Finset ℕ, ∑ t ∈ ts, reads (s.threads.holds t) ≤ 65535) ∧
    ∀ t, writes (s.threads.holds t) ≤ 65535

/-- Beside an outstanding write hold no other thread has any hold. -/
def Exclusive (s : Process) : Prop :=
  ∀ t u, t ≠ u → .write ∈ s.threads.holds t → s.threads.holds u = []

/-- An id stays with its thread. -/
def Extends (s s' : Process) : Prop :=
  ∀ t lThreadId, s.manager.lThreadId t = some lThreadId → s'.manager.lThreadId t = some lThreadId

variable {s s' : Process}

theorem manager_spec {a : ThreadManager.Act} (hstep : s.step (.manager a) = some s') :
    ∃ manager, s.manager.step a = some manager ∧ s' = { s with manager } := by
  simp only [step] at hstep
  split at hstep
  case h_1 =>
    obtain ⟨-, hstep⟩ := Option.ite_none_right_eq_some.mp hstep
    obtain ⟨manager, hmanager, rfl⟩ := Option.map_eq_some_iff.mp hstep
    exact ⟨manager, hmanager, rfl⟩
  case h_2 =>
    obtain ⟨-, hstep⟩ := Option.ite_none_right_eq_some.mp hstep
    obtain ⟨manager, hmanager, rfl⟩ := Option.map_eq_some_iff.mp hstep
    exact ⟨manager, hmanager, rfl⟩
  case h_3 =>
    obtain ⟨manager, hmanager, rfl⟩ := Option.map_eq_some_iff.mp hstep
    exact ⟨manager, hmanager, rfl⟩

theorem thread_spec {a : Lock.Act ℕ} (hstep : s.step (.thread a) = some s') :
    ∃ lThreadId threads, s.manager.threads[a.thread]? = some (.running lThreadId) ∧
      run lThreadId s.threads a = some threads ∧ s' = { s with threads } := by
  simp only [step] at hstep
  split at hstep
  case h_1 lThreadId hrunning =>
    obtain ⟨threads, hrun, rfl⟩ := Option.map_eq_some_iff.mp hstep
    exact ⟨lThreadId, threads, hrunning, hrun, rfl⟩
  case h_2 => cases hstep

theorem extends_step {a : Act} (hstep : s.step a = some s') : s.Extends s' := by
  intro t lThreadId ht
  cases a with
  | manager a =>
    obtain ⟨manager, hmanager, rfl⟩ := manager_spec hstep
    exact ThreadManager.lThreadId_of_step hmanager ht
  | thread a =>
    obtain ⟨x, threads, -, -, rfl⟩ := thread_spec hstep
    exact ht

/-- The manager runs as it does alone. -/
theorem manager_run {ok : Process → Act → Process → Prop} {as : List Act}
    (hrun : machine.Run ok as s) : ∃ bs, ThreadManager.machine.Run Machine.Any bs s.manager := by
  refine hrun.project Machine.Any manager rfl fun s a s' _ hstep => ?_
  cases a with
  | manager a =>
    obtain ⟨manager, hmanager, rfl⟩ := manager_spec hstep
    exact .inr ⟨a, hmanager, trivial⟩
  | thread a =>
    obtain ⟨lThreadId, threads, -, -, rfl⟩ := thread_spec hstep
    exact .inl rfl

theorem holds_of_run {lThreadId : BitVec 32} {r r' : Threads ℕ} {a : Lock.Act ℕ}
    (hrun : run lThreadId r a = some r') {t : ℕ} (ht : t ≠ a.thread) : r'.holds t = r.holds t := by
  cases a with
  | call u op =>
    obtain ⟨-, hrun⟩ := Option.ite_none_right_eq_some.mp hrun
    cases hrun
    rfl
  | run u tick =>
    obtain ⟨-, hrun⟩ := Option.ite_none_right_eq_some.mp hrun
    split at hrun
    all_goals cases hrun
    · rfl
    · exact update_of_ne ht ..

/-- Only a thread with an id has ever called the lock. -/
theorem holds_of_lThreadId_none {ok : Process → Act → Process → Prop} {as : List Act}
    (hrun : machine.Run ok as s) {t : ℕ} (hnone : s.manager.lThreadId t = none) :
    s.threads.holds t = [] := by
  revert t
  refine hrun.invariant (P := fun s => ∀ {t}, s.manager.lThreadId t = none → s.threads.holds t = [])
    (fun _ => rfl) fun s a s' ih _ hstep t hnone => ?_
  have hbefore : s.manager.lThreadId t = none := by
    by_contra hid
    obtain ⟨lThreadId, hid⟩ := Option.ne_none_iff_exists'.mp hid
    rw [extends_step hstep t lThreadId hid] at hnone
    cases hnone
  cases a with
  | manager a =>
    obtain ⟨manager, -, rfl⟩ := manager_spec hstep
    exact ih hbefore
  | thread a =>
    obtain ⟨lThreadId, threads, hrunning, hrun, rfl⟩ := thread_spec hstep
    have hother : t ≠ a.thread := by
      rintro rfl
      rw [ThreadManager.lThreadId_of_running hrunning] at hbefore
      cases hbefore
    exact (holds_of_run hrun hother).trans (ih hbefore)

section View

variable {P : ℕ → Prop}

/-- The lock as some of the threads know it. -/
def view (P : ℕ → Prop) (r : Threads ℕ) : Threads {t // P t} where
  lock := r.lock
  pc t := r.pc t
  holds t := r.holds t
  crashed := r.crashed

theorem update_view {γ : Type} (f : ℕ → γ) {t : ℕ} (ht : P t) (v : γ) :
    (fun u : {t // P t} => update f t v u) = update (fun u : {t // P t} => f u) ⟨t, ht⟩ v := by
  funext u
  by_cases hu : u = ⟨t, ht⟩
  · subst hu
    simp
  · rw [update_of_ne hu, update_of_ne fun h => hu (Subtype.ext h)]

/-- A step of one of these threads is a step of the lock with these threads only. -/
theorem run_view {ids : ThreadIds {t // P t}} {r r' : Threads ℕ} {a : Lock.Act ℕ} {t : ℕ} (ht : P t)
    (hthread : a.thread = t) (hrun : run (ids.lThreadId ⟨t, ht⟩) r a = some r') :
    ∃ b, Threads.step ids (view P r) b = some (view P r') := by
  cases a with
  | call u op =>
    obtain rfl : u = t := hthread
    obtain ⟨hcond, hrun⟩ := Option.ite_none_right_eq_some.mp hrun
    cases hrun
    refine ⟨.call ⟨u, ht⟩ op, (run_eq_step ..).symm.trans ((if_pos hcond).trans ?_)⟩
    simp only [view, update_view r.pc ht]
  | run u tick =>
    obtain rfl : u = t := hthread
    obtain ⟨hcond, hrun⟩ := Option.ite_none_right_eq_some.mp hrun
    refine ⟨.run ⟨u, ht⟩ tick, (run_eq_step ..).symm.trans ((if_pos hcond).trans ?_)⟩
    simp only [view, Lock.Act.thread]
    split at hrun
    case h_1 =>
      cases hrun
      rfl
    case h_2 =>
      cases hrun
      rw [update_view r.pc ht, update_view r.holds ht]

end View

/-- As long as at most 65535 ids have been issued, the process is one that the lock is made for. -/
theorem excludes {as : List Act} (hrun : machine.Run (fun _ _ s' => s'.WithinLimits) as s)
    (hfew : s.manager.issued.length ≤ 65535) : s.Exclusive := by
  obtain ⟨bs, hmanager⟩ := manager_run hrun
  have hinv := ThreadManager.inv_run hmanager
  have hissued (t : ℕ) (x : BitVec 32) (ht : s.manager.lThreadId t = some x) : t ∈ s.manager.issued := by
    obtain ⟨k, hk, -⟩ := (hinv.ids t x).mp ht
    exact List.mem_of_getElem? hk
  have hbounded := hrun.bounded Extends (fun r s t hrs hst u x hu => hst u x (hrs u x hu))
    (fun _ _ _ _ hstep => extends_step hstep) (fun _ _ h => h)
  obtain ⟨cs, hlock⟩ := hbounded.project (A := Lock.machine (ThreadManager.issuedIds hinv hfew))
    (fun _ _ r => r.WithinLimits) (fun s' => view (· ∈ s.manager.issued) s'.threads) rfl
    fun r a r' ⟨hlimits, hle⟩ hstep => by
      cases a with
      | manager a =>
        obtain ⟨manager, -, rfl⟩ := manager_spec hstep
        exact .inl rfl
      | thread a =>
        obtain ⟨x, threads, hrunning, hrun, rfl⟩ := thread_spec hstep
        have hid := hle _ x (ThreadManager.lThreadId_of_running hrunning)
        have hids : x = (ThreadManager.issuedIds hinv hfew).lThreadId ⟨a.thread, hissued _ x hid⟩ := by
          simp [ThreadManager.issuedIds, hid]
        rw [hids] at hrun
        obtain ⟨b, hb⟩ := run_view (hissued _ x hid) rfl hrun
        refine .inr ⟨b, hb, ?_, fun t => hlimits.2 t⟩
        have hsum := hlimits.1 s.manager.issued.toFinset
        rwa [Finset.sum_subtype s.manager.issued.toFinset (fun t => List.mem_toFinset)] at hsum
  have hexclusive := (withinLimits_run hlock).1
  intro t u hne hwrite
  by_contra hholds
  have hmem (v : ℕ) (hv : s.threads.holds v ≠ []) : v ∈ s.manager.issued := by
    cases hid : s.manager.lThreadId v with
    | none => exact absurd (holds_of_lThreadId_none hrun hid) hv
    | some x => exact hissued v x hid
  have ht := hmem t (List.ne_nil_of_mem hwrite)
  exact hholds (hexclusive.exclusive (t := ⟨t, ht⟩) (u := ⟨u, hmem u hholds⟩)
    (fun h => hne (congrArg Subtype.val h)) hwrite)

theorem WithinLimits.congr (hlimits : s.WithinLimits) (hholds : s'.threads.holds = s.threads.holds) :
    s'.WithinLimits := by
  rw [WithinLimits, hholds]
  exact hlimits

theorem WithinLimits.write (hlimits : s.WithinLimits) {t : ℕ}
    (hroom : writes (s.threads.holds t) < 65535)
    (hholds : s'.threads.holds = update s.threads.holds t (.write :: s.threads.holds t)) :
    s'.WithinLimits := by
  have hreads (u : ℕ) : reads (s'.threads.holds u) = reads (s.threads.holds u) := by
    by_cases hu : u = t
    · rw [hu, hholds, update_self, reads_write]
    · rw [hholds, update_of_ne hu]
  refine ⟨fun ts => ?_, fun u => ?_⟩
  · simp only [hreads]
    exact hlimits.1 ts
  · by_cases hu : u = t
    · rw [hu, hholds, update_self, writes_write]
      exact hroom
    · rw [hholds, update_of_ne hu]
      exact hlimits.2 u

/-- A thread launched at any time finds the lock free. -/
theorem run_manager {as : List ThreadManager.Act} {manager : ThreadManager}
    (hrun : ThreadManager.machine.Run Machine.Any as manager) :
    machine.Run (fun _ _ s' => s'.WithinLimits) (as.map .manager) { manager } := by
  have hlimits (manager : ThreadManager) : WithinLimits { manager } :=
    ⟨fun ts => by simp [reads], fun t => by simp [writes]⟩
  induction hrun with
  | start => exact .start
  | @snoc as manager manager' a _ _ hstep ih =>
    rw [List.map_append]
    refine ih.snoc (hlimits manager') ?_
    change manager.step a = some manager' at hstep
    cases a with
    | initTLS t => simp only [machine, step, hstep, Option.map_some]
    | launch t => simp only [machine, step, hstep, if_true, Option.map_some]
    | finish t => simp only [machine, step, hstep, if_true, Option.map_some]

section WriteLock

variable {t : ℕ} {lThreadId : BitVec 32}

/-- A thread inside a function of the lock, which has not returned. -/
def inside (s : Process) (t : ℕ) (lock : Lock) (pc : Pc) : Process :=
  { s with threads := { s.threads with lock, pc := update s.threads.pc t pc } }

/-- A step inside of a function. -/
theorem run_inside {as : List Act} {tick : BitVec 64} {lock lock' : Lock} {pc pc' : Pc}
    (hlimits : s.WithinLimits) (hrunning : s.manager.threads[t]? = some (.running lThreadId))
    (hcrashed : s.threads.crashed = none) (hpc : pc ≠ .idle) (hpc' : pc' ≠ .idle)
    (hcode : Lock.step lThreadId tick lock pc = .ok (lock', pc'))
    (hrun : machine.Run (fun _ _ s' => s'.WithinLimits) as (s.inside t lock pc)) :
    machine.Run (fun _ _ s' => s'.WithinLimits) (as ++ [.thread (.run t tick)])
      (s.inside t lock' pc') := by
  refine hrun.snoc (hlimits.congr rfl) ?_
  simp [machine, step, inside, Lock.Act.thread, hrunning, run, hcrashed, hpc, hcode,
    settled_of_ne _ hpc']

/-- `WriteLock` on a free lock acquires it in five steps, whatever the id, if that is not 0. -/
theorem run_writeLock {as : List Act} (hlimits : s.WithinLimits)
    (hrunning : s.manager.threads[t]? = some (.running lThreadId)) (hcrashed : s.threads.crashed = none)
    (hidle : s.threads.pc t = .idle) (hfree : s.threads.lock.lockFlag = emptyFlag)
    (hid : lThreadId ≠ 0) (hroom : writes (s.threads.holds t) < 65535)
    (hrun : machine.Run (fun _ _ s' => s'.WithinLimits) as s) :
    ∃ bs, machine.Run (fun _ _ s' => s'.WithinLimits) bs
      { s with threads :=
        { s.threads with
          lock := ⟨desired lThreadId, s.threads.lock.writeCount + 1⟩
          holds := update s.threads.holds t (.write :: s.threads.holds t) } } := by
  have hcall : machine.Run (fun _ _ s' => s'.WithinLimits) (as ++ [.thread (.call t .writeLock)])
      (s.inside t s.threads.lock .writeLockOwner) := by
    refine hrun.snoc (hlimits.congr rfl) ?_
    simp [machine, step, inside, Lock.Act.thread, hrunning, run, hcrashed, hidle, Op.Allowed, Op.entry]
  have howner : Lock.step lThreadId 0 s.threads.lock .writeLockOwner =
      .ok (s.threads.lock, .writeLockBegin) := by
    have hunowned : lThreadId ≠ lockThreadId s.threads.lock.lockFlag := by
      rw [hfree]
      exact hid
    rw [Lock.step, if_neg hunowned]
  have hbegin := run_inside hlimits hrunning hcrashed (by simp) (by simp) howner hcall
  have htick : Lock.step lThreadId 0 s.threads.lock .writeLockBegin =
      .ok (s.threads.lock, .writeLockSpin 0 0) := rfl
  have hspin := run_inside hlimits hrunning hcrashed (by simp) (by simp) htick hbegin
  have hexchange : Lock.step lThreadId 0 s.threads.lock (.writeLockSpin 0 0) =
      .ok ({ s.threads.lock with lockFlag := desired lThreadId }, .writeLockAcquired) := by
    rw [Lock.step, if_pos hfree]
  have hacquired := run_inside hlimits hrunning hcrashed (by simp) (by simp) hexchange hspin
  refine ⟨_, hacquired.snoc (a := .thread (.run t 0)) (hlimits.write hroom rfl) ?_⟩
  have hback : update s.threads.pc t .idle = s.threads.pc := by
    rw [← hidle, update_eq_self]
  simp [machine, step, inside, Lock.Act.thread, hrunning, run, hcrashed, Lock.step, settled, Pc.op,
    Op.settle, hback]

end WriteLock

/-- With one thread more, whose id is 65536 and whose writer tag therefore is the empty flag, the
lock stays free for everybody: two threads have it for writing. -/
theorem exists_two_writers : ∃ as s t u, machine.Run (fun _ _ s' => s'.WithinLimits) as s ∧
    s.manager.issued.length = 65536 ∧ t ≠ u ∧ .write ∈ s.threads.holds t ∧
    .write ∈ s.threads.holds u := by
  obtain ⟨as, hlaunched⟩ := ThreadManager.launched_run 65535
  have hstart := run_manager hlaunched
  generalize hmanager : ThreadManager.launched 65535 = manager at hstart
  have hfirst : manager.threads[0]? = some (.running 1) := by
    rw [← hmanager]
    simp [ThreadManager.launched, ThreadManager.idOf]
  have hlast : manager.threads[65535]? = some (.running 65536) := by
    rw [← hmanager]
    simp [ThreadManager.launched, ThreadManager.idOf]
  have hlimits : WithinLimits { manager } :=
    ⟨fun ts => by simp [reads], fun t => by simp [writes]⟩
  obtain ⟨bs, hone⟩ := run_writeLock hlimits hlast rfl rfl rfl (by decide) (by simp [writes]) hstart
  have hfree : desired 65536 = emptyFlag := by decide
  obtain ⟨cs, htwo⟩ := run_writeLock (hlimits.write (by simp [writes]) rfl) hfirst rfl rfl
    hfree (by decide) (by simp [writes]) hone
  refine ⟨cs, _, 65535, 0, htwo, ?_, by decide, by simp, by simp⟩
  rw [← hmanager, ThreadManager.launched, List.length_range]

/-- The lock excludes, over all runs of a process in which threads are launched at any time,
exactly as long as at most 65535 of them have an id; with the next one two threads may have it for
writing at once. -/
theorem excludes_iff (n : ℕ) :
    ((∀ as s, machine.Run (fun _ _ s' => s'.WithinLimits) as s → s.manager.issued.length ≤ n →
        s.Exclusive) ↔ n ≤ 65535) ∧
      ∃ as s t u, machine.Run (fun _ _ s' => s'.WithinLimits) as s ∧
        s.manager.issued.length = 65536 ∧ t ≠ u ∧ .write ∈ s.threads.holds t ∧
        .write ∈ s.threads.holds u := by
  refine ⟨⟨fun h => ?_, fun hn as s hrun hfew => excludes hrun (hfew.trans hn)⟩, exists_two_writers⟩
  by_contra hmany
  obtain ⟨as, s, t, u, hrun, hissued, hne, ht, hu⟩ := exists_two_writers
  have hnone := h as s hrun (by omega) t u hne ht
  rw [hnone] at hu
  cases hu

end Process

end CppServer.Lock
