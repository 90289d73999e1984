import CppServer.Lock.Invariant

namespace CppServer.Lock

open Function Base Base.Counting

variable {T : Type}

theorem toNat_ne {ids : ThreadIds T} {t u : T} (hne : u ≠ t) :
    (ids.lThreadId u).toNat ≠ (ids.lThreadId t).toNat := by
  intro h
  exact hne (ids.injective (BitVec.eq_of_toNat_eq h))

variable [Fintype T]

@[simp] theorem readers_mk (lock : Lock) (pc : T → Pc) (holds : T → List Hold)
    (crashed : Option Cause) :
    Threads.readers ⟨lock, pc, holds, crashed⟩ = ∑ t, reads (holds t) := rfl

/-- The invariant of a lock and all its threads. Ids are pairwise different, so
the owner clauses of the threads leave room for one owner at most. -/
structure Inv (ids : ThreadIds T) (s : Threads T) : Prop where
  thread : ∀ t, ThreadInv s.lock s.readers (ids.lThreadId t).toNat (s.pc t) (s.holds t)
  shared : Shared s.lock s.readers
  owned : high s.lock = 0 ∨ ∃ t, high s.lock = (ids.lThreadId t).toNat

/-- What the fields of the lock say about the outstanding holds. Between the
exchange that acquires the lock and the increment that completes `WriteLock`
the winner has no hold yet, and between the decrement and the store of the
last `WriteUnlock` its hold is no longer counted. -/
structure Accounted (ids : ThreadIds T) (s : Threads T) : Prop where
  readers : low s.lock = s.readers
  writer : ∀ t, .write ∈ s.holds t → high s.lock = (ids.lThreadId t).toNat
  nobody : (∀ t, .write ∉ s.holds t) → (∀ t, s.pc t ≠ .writeLockAcquired) → high s.lock = 0
  nesting : ∀ t, .write ∈ s.holds t → s.pc t ≠ .writeUnlockStore →
    s.lock.writeCount.toNat = writes (s.holds t)
  unnested : (∀ t, .write ∉ s.holds t) → s.lock.writeCount.toNat = 0

theorem mem_write_iff {holds : List Hold} : .write ∈ holds ↔ 0 < writes holds := by
  rw [writes, List.count_pos_iff]

theorem holds_eq_nil {holds : List Hold} (hwrites : writes holds = 0) (hreads : reads holds = 0) :
    holds = [] := by
  cases holds with
  | nil => rfl
  | cons hold rest => cases hold <;> simp at hwrites hreads

theorem Inv.exclusive {ids : ThreadIds T} {s : Threads T} (hinv : Inv ids s) {t u : T}
    (hne : t ≠ u) (hwrite : .write ∈ s.holds t) : s.holds u = [] := by
  have hhigh := (hinv.thread t).owner.mpr (.inl (mem_write_iff.mp hwrite))
  have hnot : ¬ Owns (s.pc u) (s.holds u) := by
    rw [← (hinv.thread u).owner, hhigh]
    exact toNat_ne hne
  have hpositive := ids.positive t
  apply holds_eq_nil
  · by_contra hwrites
    exact hnot (.inl (Nat.pos_of_ne_zero hwrites))
  · exact (hinv.thread u).guest hnot (by omega)

theorem Inv.accounted {ids : ThreadIds T} {s : Threads T} (hinv : Inv ids s)
    (hlimit : ∀ t, writes (s.holds t) ≤ 65535) : Accounted ids s := by
  refine ⟨hinv.shared.low, fun t ht => (hinv.thread t).owner.mpr (.inl (mem_write_iff.mp ht)),
    fun hnone hpc => ?_, fun t ht hpc => ?_, fun hnone => ?_⟩
  · rcases hinv.owned with h | ⟨t, h⟩
    · exact h
    · rcases (hinv.thread t).owner.mp h with h | h
      · exact absurd (mem_write_iff.mpr h) (hnone t)
      · exact absurd h (hpc t)
  · have hdepth := (hinv.thread t).depth (.inl (mem_write_iff.mp ht))
    have hreleased : released (s.pc t) = 0 := by
      cases h : s.pc t with
      | writeUnlockStore => exact absurd h hpc
      | _ => rfl
    have hle := hlimit t
    rw [hreleased] at hdepth
    omega
  · rcases hinv.owned with h | ⟨t, h⟩
    · exact hinv.shared.free h
    · have hdepth := (hinv.thread t).depth ((hinv.thread t).owner.mp h)
      have hzero : writes (s.holds t) = 0 := by
        by_contra hwrites
        exact hnone t (mem_write_iff.mpr (Nat.pos_of_ne_zero hwrites))
      simpa [hzero] using hdepth

variable [DecidableEq T]

/-- The step about to be taken wraps no counter. -/
def Threads.NoWrap (s : Threads T) : Act T → Prop
  | .call _ _ => True
  | .run t _ => Lock.NoWrap s.lock s.readers (s.holds t) (s.pc t)

theorem inv_start (ids : ThreadIds T) : Inv ids (machine ids).start := by
  have hlock : high ({} : Lock) = 0 := high_empty {}
  have hreaders : (machine ids).start.readers = 0 := by simp [machine, Threads.readers, reads]
  refine ⟨fun t => ⟨⟨?_, ?_⟩, ?_, ?_, trivial⟩, ⟨?_, fun _ => rfl⟩, .inl hlock⟩
  · intro h
    have hpositive := ids.positive t
    exact absurd (h.symm.trans hlock) (by omega)
  · intro h
    simp [machine, Owns, writes] at h
  · intro _ _
    rfl
  · intro h
    simp [machine, Owns, writes] at h
  · rw [hreaders]
    exact low_empty {}

/-- Entering a call puts the caller before the first step of the function. -/
theorem ThreadInv.enter {lock : Lock} {readers id : ℕ} {holds : List Hold} {op : Op}
    (hinv : ThreadInv lock readers id .idle holds) (hallowed : op.Allowed holds) :
    ThreadInv lock readers id op.entry holds := by
  have howns : Owns op.entry holds ↔ Owns .idle holds := by cases op <;> simp [Owns, Op.entry]
  have hreleased : released op.entry = 0 := by cases op <;> rfl
  refine ⟨hinv.owner.trans howns.symm, fun hnot => hinv.guest (fun h => hnot (howns.mpr h)), ?_, ?_⟩
  · intro h
    rw [hreleased]
    exact hinv.depth (howns.mp h)
  · cases op with
    | writeLock => trivial
    | readLock => trivial
    | writeUnlock => exact hallowed
    | readUnlock => exact hallowed

/-- The readers after a step of `t`, counted against the readers before. -/
theorem readers_update (s : Threads T) (t : T) (holds : List Hold) :
    (∑ u, reads (update s.holds t holds u)) + reads (s.holds t) = s.readers + reads holds :=
  total_update reads s.holds t holds

theorem inv_step {ids : ThreadIds T} {s s' : Threads T} {a : Act T} (hinv : Inv ids s)
    (hwrap : s.NoWrap a) (hstep : Threads.step ids s a = some s') : Inv ids s' := by
  obtain ⟨hthread, hshared, howned⟩ := id hinv
  cases a with
  | call t op =>
    obtain ⟨_, hidle, hallowed, rfl⟩ := Threads.step_call hstep
    refine ⟨fun u => ?_, hshared, howned⟩
    change ThreadInv s.lock s.readers _ (update s.pc t op.entry u) (s.holds u)
    by_cases hu : u = t
    · subst hu
      have h := hthread u
      rw [hidle] at h
      simpa only [update_self] using h.enter hallowed
    · simpa only [update_of_ne hu] using hthread u
  | run t tick =>
    obtain ⟨_, _, ⟨cause, _, rfl⟩ | ⟨lock', pc', hlock, rfl⟩⟩ := Threads.step_run hstep
    · exact ⟨hthread, hshared, howned⟩
    · have hkept := step_keeps (ids.positive t) (ids.narrow t) (hthread t) hshared
        (le_total (fun u => reads (s.holds u)) t) hwrap hlock
        (readers_update s t (settled (s.pc t) pc' (s.holds t)))
      refine ⟨fun u => ?_, hkept.shared, ?_⟩
      · by_cases hu : u = t
        · subst hu
          simpa only [update_self, readers_mk] using hkept.inv
        · simpa only [update_of_ne hu, readers_mk] using (hthread u).other hkept.contained (toNat_ne hu)
            (ids.positive u) (le_total (fun u => reads (s.holds u)) u)
      · rcases hkept.contained with ⟨hsame, _⟩ | ⟨_, hafter | hafter, _⟩
        · rw [hsame]
          exact howned
        · exact .inl hafter
        · exact .inr ⟨t, hafter⟩

/-- The invariant holds in every run that wraps no counter. -/
theorem inv_run {ids : ThreadIds T} {as : List (Act T)} {s : Threads T}
    (hrun : (machine ids).Run (fun s a _ => s.NoWrap a) as s) : Inv ids s :=
  hrun.invariant (inv_start ids) fun _ _ _ => inv_step

/-- The bounds on use: at most 65535 read holds in total, and write holds
nested at most 65535 deep. -/
def Threads.WithinLimits (s : Threads T) : Prop :=
  s.readers ≤ 65535 ∧ ∀ t, writes (s.holds t) ≤ 65535

/-- Staying within the limits wraps no counter. -/
theorem noWrap_of_withinLimits {ids : ThreadIds T} {s s' : Threads T} {a : Act T}
    (hbefore : s.WithinLimits) (hafter : s'.WithinLimits)
    (hstep : Threads.step ids s a = some s') : s.NoWrap a := by
  cases a with
  | call t op => trivial
  | run t tick =>
    have hgrow {lock' : Lock} {pc' : Pc}
        (hlock : Lock.step (ids.lThreadId t) tick s.lock (s.pc t) = .ok (lock', pc'))
        (hsettled : settled (s.pc t) pc' (s.holds t) = .read :: s.holds t) :
        s.readers < 65535 := by
      obtain ⟨_, _, ⟨_, herror, _⟩ | ⟨_, _, hok, rfl⟩⟩ := Threads.step_run hstep
      · rw [herror] at hlock
        cases hlock
      · rw [hok] at hlock
        cases hlock
        have hreaders := readers_update s t (settled (s.pc t) pc' (s.holds t))
        have hlimit : (∑ u, reads (update s.holds t (settled (s.pc t) pc' (s.holds t)) u)) ≤ 65535 :=
          hafter.1
        rw [hsettled] at hreaders hlimit
        simp only [reads_read] at hreaders
        omega
    simp only [Threads.NoWrap]
    cases hpc : s.pc t with
    | readLockReenter =>
      rw [hpc] at hgrow
      exact hgrow rfl rfl
    | readLockSpin beginTick spinCount expected =>
      intro hequal
      rw [hpc] at hgrow
      exact hgrow (by simp only [Lock.step, if_pos hequal]; rfl) rfl
    | writeUnlockCount =>
      intro hone
      have hdepth := hbefore.2 t
      omega
    | _ => trivial

theorem withinLimits_run {ids : ThreadIds T} {as : List (Act T)} {s : Threads T}
    (hrun : (machine ids).Run (fun _ _ s' => s'.WithinLimits) as s) :
    Inv ids s ∧ s.WithinLimits := by
  have hstart : Inv ids (machine ids).start ∧ (machine ids).start.WithinLimits :=
    ⟨inv_start ids, by simp [machine, Threads.readers, reads], by simp [machine, writes]⟩
  have hboth : (machine ids).Run (fun s a s' => s.NoWrap a ∧ s'.WithinLimits) as s ∧
      Inv ids s ∧ s.WithinLimits :=
    hrun.strengthen (P := fun s => Inv ids s ∧ s.WithinLimits) hstart
      (fun _ _ _ h hok hstep => ⟨inv_step h.1 hok.1 hstep, hok.2⟩)
      (fun _ _ _ h hok hstep => ⟨noWrap_of_withinLimits h.2 hok hstep, hok⟩)
  exact hboth.2

/-- Mutual exclusion under every interleaving of the functions' steps: beside
an outstanding write hold no other thread has any hold, and the lock's fields
account for the outstanding holds. -/
theorem mutual_exclusion {ids : ThreadIds T} {as : List (Act T)} {s : Threads T}
    (hrun : (machine ids).Run (fun _ _ s' => s'.WithinLimits) as s) :
    (∀ t u, t ≠ u → .write ∈ s.holds t → s.holds u = []) ∧ Accounted ids s := by
  obtain ⟨hinv, hlimits⟩ := withinLimits_run hrun
  exact ⟨fun _ _ hne hwrite => hinv.exclusive hne hwrite, hinv.accounted hlimits.2⟩

def twoIds : ThreadIds (Fin 2) where
  lThreadId t := BitVec.ofNat 32 (t.val + 1)
  positive := by decide
  narrow := by decide
  injective := by decide

instance (s : Threads T) : Decidable s.WithinLimits :=
  inferInstanceAs (Decidable (_ ∧ _))

/-- A writer that re-entered for reading, beside a reader that keeps trying. -/
theorem mutual_exclusion_contended :
    ∃ as s, (machine twoIds).Run (fun _ _ s' => s'.WithinLimits) as s ∧
      s.holds 0 = [.read, .write] ∧ s.pc 1 = .readLockLoad 0 1 ∧ s.holds 1 = [] := by
  let as : List (Act (Fin 2)) :=
    [.call 0 .writeLock, .run 0 0, .call 1 .readLock, .run 0 0, .run 0 0, .run 1 0, .run 0 0,
      .run 1 0, .call 0 .readLock, .run 0 0, .run 1 0, .run 1 0, .run 0 0]
  have hend : ((machine twoIds).check (fun _ _ s' => s'.WithinLimits) (machine twoIds).start as).map
      (fun s => (s.holds 0, s.pc 1)) = some ([.read, .write], .readLockLoad 0 1) := by
    decide
  obtain ⟨s, hcheck, hs⟩ := Option.map_eq_some_iff.mp hend
  obtain ⟨hholds, hpc⟩ := Prod.mk.inj hs
  have hrun := Machine.run_of_check hcheck
  have hexclusive := (mutual_exclusion hrun).1 0 1 (by decide) (by simp [hholds])
  exact ⟨as, s, hrun, hholds, hpc, hexclusive⟩

end CppServer.Lock
