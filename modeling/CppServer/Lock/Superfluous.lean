import CppServer.Lock.Exclusion
import CppServer.Lock.Recursion

namespace CppServer.Lock

open Base

variable {T : Type}

/-- The thread that a label is about. -/
def Act.thread : Act T → T
  | .call t _ => t
  | .run t _ => t

/-- An unlock call that has no hold to release, of anybody. -/
def Threads.Superfluous [Fintype T] (s : Threads T) : Op → Prop
  | .readUnlock => s.readers = 0
  | .writeUnlock => ∀ t, .write ∉ s.holds t
  | .writeLock | .readLock => False

/-- Nobody is in a call or holds the lock. -/
def Threads.Free (s : Threads T) : Prop := ∀ t, s.pc t = .idle ∧ s.holds t = []

/-- In well-nested use within the limits `t` has called the unlock function `op`
superfluously and comes to its first access to the lock in the state `s`. Entering a call
reads nothing, and other threads may have gone on since. -/
def Strays [Fintype T] [DecidableEq T] (ids : ThreadIds T) (t : T) (op : Op) (s : Threads T) :
    Prop :=
  ∃ as bs s₀, (machine ids).Run (fun _ _ s' => s'.WithinLimits) as s₀ ∧ s₀.pc t = .idle ∧
    s₀.Superfluous op ∧ (machine ids).Run (fun _ _ s' => s'.WithinLimits) (as ++ bs) s ∧
    (∀ a ∈ bs, a.thread ≠ t) ∧ s.crashed = none

/-- A call at `pc` ends in `CRASH`, whatever the other threads do to the lock between its
steps and whatever the clock shows. -/
inductive Crashes (lThreadId : BitVec 32) : Lock → Pc → Prop
  | intro {lock : Lock} {pc : Pc} (hpc : pc ≠ .idle)
      (hstep : ∀ tick lock' pc', Lock.step lThreadId tick lock pc = .ok (lock', pc') →
        ∀ lock'', Crashes lThreadId lock'' pc') : Crashes lThreadId lock pc

/-- If the call returns undisturbed, then after any further use of the lock a pair of
`WriteLock` and `WriteUnlock` on the otherwise free lock restores the empty flag. -/
def Harmless [DecidableEq T] (ids : ThreadIds T) (t : T) (op : Op) (s : Threads T) : Prop :=
  ∀ ticks fuel lock' bs s', solo (ids.lThreadId t) ticks fuel s.lock op.entry = some (.ok lock') →
    (machine ids).exec { s with lock := lock' } bs = some s' → s'.Free →
    ∀ u ticks' fuel' lock'', callAll (ids.lThreadId u) fuel' ticks' s'.lock
      [.writeLock, .writeUnlock] = some (.ok lock'') → lock''.lockFlag = emptyFlag

/-- When the test of the two functions fails: both look at the reader field only. -/
def Threads.Caught [Fintype T] (s : Threads T) : Op → Prop
  | .readUnlock => s.readers = 0
  | .writeUnlock => s.readers ≠ 0
  | .writeLock | .readLock => False

section Calls

variable {lThreadId : BitVec 32} {lock lock' : Lock} {pc pc' : Pc}

theorem not_crashes_idle : ¬ Crashes lThreadId lock .idle := by
  rintro ⟨hpc, -⟩
  exact hpc rfl

/-- A step that goes through leads to the rest of the call. -/
theorem Crashes.next (hcrashes : Crashes lThreadId lock pc) (tick : BitVec 64)
    (hstep : Lock.step lThreadId tick lock pc = .ok (lock', pc')) : Crashes lThreadId lock' pc' := by
  obtain ⟨-, hnext⟩ := hcrashes
  exact hnext tick lock' pc' hstep lock'

theorem crashes_of_error (hpc : pc ≠ .idle)
    (herror : ∀ tick, ∃ cause, Lock.step lThreadId tick lock pc = .error cause) :
    Crashes lThreadId lock pc := by
  refine .intro hpc fun tick lock' pc' hstep => ?_
  obtain ⟨cause, h⟩ := herror tick
  rw [h] at hstep
  cases hstep

theorem crashes_readUnlock_iff : Crashes lThreadId lock Op.readUnlock.entry ↔ low lock = 0 := by
  have hzero : readCount lock.lockFlag = 0 ↔ low lock = 0 := readCount_eq_zero_iff _
  constructor
  · intro hcrashes
    by_contra hlow
    have hstep : Lock.step lThreadId 0 lock .readUnlockSub =
        .ok ({ lock with lockFlag := lock.lockFlag - 1 }, .idle) :=
      if_neg fun h => hlow (hzero.mp h)
    exact not_crashes_idle (hcrashes.next 0 hstep)
  · intro hlow
    exact crashes_of_error (by simp [Op.entry]) fun tick => ⟨_, if_pos (hzero.mpr hlow)⟩

/-- Past its test `WriteUnlock` returns. -/
theorem not_crashes_writeUnlockCount : ¬ Crashes lThreadId lock .writeUnlockCount := by
  intro hcrashes
  by_cases hlast : lock.writeCount - 1 = 0
  · have hcount : Lock.step lThreadId 0 lock .writeUnlockCount =
        .ok ({ lock with writeCount := lock.writeCount - 1 }, .writeUnlockStore) := by
      simp only [Lock.step, if_pos hlast]
    exact not_crashes_idle ((hcrashes.next 0 hcount).next 0 rfl)
  · have hcount : Lock.step lThreadId 0 lock .writeUnlockCount =
        .ok ({ lock with writeCount := lock.writeCount - 1 }, .idle) := by
      simp only [Lock.step, if_neg hlast]
    exact not_crashes_idle (hcrashes.next 0 hcount)

theorem crashes_writeUnlock_iff : Crashes lThreadId lock Op.writeUnlock.entry ↔ low lock ≠ 0 := by
  have hzero : readCount lock.lockFlag ≠ 0 ↔ low lock ≠ 0 := not_congr (readCount_eq_zero_iff _)
  constructor
  · intro hcrashes hlow
    have hstep : Lock.step lThreadId 0 lock .writeUnlockCheck = .ok (lock, .writeUnlockCount) :=
      if_neg fun h => hzero.mp h hlow
    exact not_crashes_writeUnlockCount (hcrashes.next 0 hstep)
  · intro hlow
    exact crashes_of_error (by simp [Op.entry]) fun tick => ⟨_, if_pos (hzero.mpr hlow)⟩

/-- A call that crashes in every execution does not return. -/
theorem Crashes.solo_ne_ok (hcrashes : Crashes lThreadId lock pc) (ticks : ℕ → BitVec 64)
    (fuel : ℕ) : solo lThreadId ticks fuel lock pc ≠ some (.ok lock') := by
  induction fuel generalizing lock pc with
  | zero => simp [solo]
  | succ fuel ih =>
    rw [solo]
    cases hstep : Lock.step lThreadId (ticks fuel) lock pc with
    | error cause => simp
    | ok next =>
      obtain ⟨lock₁, pc₁⟩ := next
      have hnext := hcrashes.next (ticks fuel) hstep
      cases pc₁ with
      | idle => exact absurd hnext not_crashes_idle
      | _ => exact ih hnext

end Calls

section Use

variable [Fintype T] [DecidableEq T] {ids : ThreadIds T} {s : Threads T}

/-- In a state of well-nested use a superfluous unlock call ends in `CRASH`, and does no
harm otherwise, exactly if its test of the reader field fails: for `ReadUnlock` if no read
hold is outstanding, for `WriteUnlock` if some read hold is. -/
theorem superfluous_caught_iff {t : T} {op : Op} (hstrays : Strays ids t op s) :
    (Crashes (ids.lThreadId t) s.lock op.entry ∧ Harmless ids t op s) ↔ s.Caught op := by
  obtain ⟨as, bs, s₀, -, -, hsuperfluous, hrun, -, -⟩ := hstrays
  have hlow : low s.lock = s.readers := (mutual_exclusion hrun).2.readers
  have hcrashes : Crashes (ids.lThreadId t) s.lock op.entry ↔ s.Caught op := by
    cases op with
    | readUnlock => rw [crashes_readUnlock_iff, hlow, Threads.Caught]
    | writeUnlock => rw [crashes_writeUnlock_iff, hlow, Threads.Caught]
    | writeLock => exact hsuperfluous.elim
    | readLock => exact hsuperfluous.elim
  rw [hcrashes, and_iff_left_iff_imp, ← hcrashes]
  intro h ticks fuel lock' bs' s' hsolo
  exact absurd hsolo (h.solo_ne_ok ticks fuel)

/-- A lock in nobody's use is as new. -/
theorem lock_of_free {as : List (Act T)}
    (hrun : (machine ids).Run (fun _ _ s' => s'.WithinLimits) as s) (hfree : s.Free) :
    s.lock = {} := by
  obtain ⟨hreaders, -, hnobody, -, hunnested⟩ := (mutual_exclusion hrun).2
  have hnone (t : T) : .write ∉ s.holds t := by simp [(hfree t).2]
  have hidle (t : T) : s.pc t ≠ .writeLockAcquired := by simp [(hfree t).1]
  have hhigh := hnobody hnone hidle
  have hcount := hunnested hnone
  have hlow : low s.lock = 0 := by simp [hreaders, Threads.readers, reads, (hfree _).2]
  have hflag : s.lock.lockFlag = emptyFlag := by
    rw [eq_emptyFlag_iff]
    simp only [high, low] at hhigh hlow
    omega
  have hdepth : s.lock.writeCount = 0 := BitVec.eq_of_toNat_eq hcount
  calc s.lock = ⟨s.lock.lockFlag, s.lock.writeCount⟩ := rfl
    _ = {} := by rw [hflag, hdepth]

/-- A `WriteUnlock` on a lock that is as new wraps the depth. -/
theorem solo_writeUnlock_wraps {lThreadId : BitVec 32} (ticks : ℕ → BitVec 64) {fuel : ℕ}
    (hfuel : 4 ≤ fuel) : solo lThreadId ticks fuel {} Op.writeUnlock.entry =
      some (.ok ⟨emptyFlag, 65535⟩) := by
  obtain ⟨fuel, rfl⟩ := Nat.exists_eq_add_of_le' hfuel
  rfl

/-- The next pair counts from there: `WriteUnlock` does not find zero and keeps the owner. -/
theorem callAll_pair_wrapped {lThreadId : BitVec 32} (hpositive : 0 < lThreadId.toNat)
    (ticks : ℕ → ℕ → BitVec 64) {fuel : ℕ} (hfuel : 4 ≤ fuel) :
    callAll lThreadId fuel ticks ⟨emptyFlag, 65535⟩ [.writeLock, .writeUnlock] =
      some (.ok ⟨desired lThreadId, 65535⟩) := by
  obtain ⟨fuel, rfl⟩ := Nat.exists_eq_add_of_le' hfuel
  have howner : ¬ lThreadId = lockThreadId emptyFlag := by
    rw [eq_lockThreadId_iff]
    change ¬ 0 = lThreadId.toNat
    omega
  have hreaders : readCount (desired lThreadId) = 0 := by
    rw [readCount_eq_zero_iff, desired_toNat]
    omega
  simp [callAll, solo, Op.entry, Lock.step, howner, hreaders]

/-- On a lock in nobody's use a superfluous `WriteUnlock` returns, and the next pair of
`WriteLock` and `WriteUnlock` of any thread leaves the lock in that thread's name. -/
theorem superfluous_writeUnlock_harms {as : List (Act T)}
    (hrun : (machine ids).Run (fun _ _ s' => s'.WithinLimits) as s) (hfree : s.Free) (t u : T)
    (ticks : ℕ → BitVec 64) (ticks' : ℕ → ℕ → BitVec 64) {fuel : ℕ} (hfuel : 4 ≤ fuel) :
    ∃ lock' lock'', solo (ids.lThreadId t) ticks fuel s.lock Op.writeUnlock.entry =
        some (.ok lock') ∧
      callAll (ids.lThreadId u) fuel ticks' lock' [.writeLock, .writeUnlock] =
        some (.ok lock'') ∧
      lock''.lockFlag = desired (ids.lThreadId u) ∧ lock''.lockFlag ≠ emptyFlag := by
  rw [lock_of_free hrun hfree]
  refine ⟨_, _, solo_writeUnlock_wraps ticks hfuel, callAll_pair_wrapped (ids.positive u) ticks' hfuel,
    rfl, fun h => ?_⟩
  have hflag := (eq_emptyFlag_iff _).mp h
  have hpositive := ids.positive u
  have hnarrow := ids.narrow u
  rw [desired_toNat] at hflag
  omega

end Use

/-- Thread 1 holds the lock for reading when thread 0 calls `WriteUnlock`. -/
theorem superfluous_caught_reading : ∃ s : Threads (Fin 2), s.holds 1 = [.read] ∧
    Crashes (twoIds.lThreadId 0) s.lock Op.writeUnlock.entry := by
  let as : List (Act (Fin 2)) := [.call 1 .readLock, .run 1 0, .run 1 0, .run 1 0, .run 1 0]
  have hend : ((machine twoIds).check (fun _ _ s' => s'.WithinLimits) (machine twoIds).start as).map
      (fun s => (s.holds 0, s.holds 1, s.pc 0, s.crashed)) = some ([], [.read], .idle, none) := by
    decide
  obtain ⟨s, hcheck, hs⟩ := Option.map_eq_some_iff.mp hend
  obtain ⟨hzero, hs⟩ := Prod.mk.inj hs
  obtain ⟨hone, hs⟩ := Prod.mk.inj hs
  obtain ⟨hidle, hcrashed⟩ := Prod.mk.inj hs
  have hrun := Machine.run_of_check hcheck
  have hsuperfluous : s.Superfluous .writeUnlock := by
    intro t
    match t with
    | 0 => simp [hzero]
    | 1 => simp [hone]
  have hstrays : Strays twoIds 0 .writeUnlock s :=
    ⟨as, [], s, hrun, hidle, hsuperfluous, by rwa [List.append_nil], by simp, hcrashed⟩
  have hcaught : s.Caught .writeUnlock := by
    simp [Threads.Caught, Threads.readers, hzero, hone, reads]
  exact ⟨s, hone, ((superfluous_caught_iff hstrays).mpr hcaught).1⟩

/-- `WriteUnlock` of thread 0, with id 1, on a new lock: it returns, and the next pair of
thread 1, with id 2, leaves the flag at `0x20000`. -/
theorem superfluous_writeUnlock_returns :
    Strays twoIds 0 .writeUnlock (machine twoIds).start ∧
      solo 1 (fun _ => 0) 4 {} Op.writeUnlock.entry = some (.ok ⟨emptyFlag, 65535⟩) ∧
      callAll 2 4 (fun _ _ => 0) ⟨emptyFlag, 65535⟩ [.writeLock, .writeUnlock] =
        some (.ok ⟨0x20000, 65535⟩) ∧
      ¬ Crashes (twoIds.lThreadId 0) (machine twoIds).start.lock Op.writeUnlock.entry ∧
      ¬ Harmless twoIds 0 .writeUnlock (machine twoIds).start := by
  refine ⟨⟨[], [], _, .start, rfl, fun t => by simp [machine], .start, by simp, rfl⟩, by decide,
    by decide, fun h => crashes_writeUnlock_iff.mp h rfl, fun h => ?_⟩
  have hflag := h (fun _ => 0) 4 ⟨emptyFlag, 65535⟩ [] _ (by decide) rfl
    (fun t => ⟨rfl, rfl⟩) 1 (fun _ _ => 0) 4 ⟨0x20000, 65535⟩ (by decide)
  exact absurd hflag (by decide)

end CppServer.Lock
