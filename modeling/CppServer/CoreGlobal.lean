import CppServer.DeadLockProfiler.Ordering
import CppServer.Memory.Teardown
import CppServer.ThreadJoin.Ended

namespace CppServer

open Base

/-- What `~CoreGlobal` takes down after the thread manager. -/
inductive Global
  | gMemory
  | gDeadLockProfiler
  | winSock
deriving DecidableEq, Repr

/-- The managers of `GCoreGlobal` and the threads that use them. `deleted` is how far the
destructor has come, and `freed` what `~Memory` has called `_aligned_free` with. `late` is
bookkeeping: who has used a global that was gone, and which. -/
structure CoreGlobal (Name : Type) where
  gThreadManager : ThreadJoin.Process := {}
  gMemory : Memory.Threads ℕ := {}
  gDeadLockProfiler : DeadLockProfiler.Profiler Name := {}
  deleted : List Global := []
  freed : List ℕ := []
  late : List (ℕ × Global) := []
  crashed : Option (DeadLockProfiler.Fault (Option Name)) := none

namespace CoreGlobal

/-- A label: a step of the thread manager and its threads, a step of a thread in `GMemory`, a
call of a lock's to the profiler, a call of WinSock, or the next step of `~CoreGlobal`. -/
inductive Act (Name : Type)
  | manager (a : ThreadJoin.Act)
  | memory (t : ℕ) (a : Memory.Act ℕ)
  | profiler (t : ℕ) (call : DeadLockProfiler.Call Name)
  | winSock (t : ℕ)
  | delete
deriving DecidableEq

/-- `delete GThreadManager` comes first, which is the manager's own destructor. -/
def order : List Global := [.gMemory, .gDeadLockProfiler, .winSock]

variable {Name : Type}

def delete (s : CoreGlobal Name) : Global → CoreGlobal Name
  | .gMemory =>
    { s with gMemory := { s.gMemory with heap := s.gMemory.heap.destroy.heap }
             freed := s.gMemory.heap.destroy.freed
             deleted := s.deleted ++ [.gMemory] }
  | g => { s with deleted := s.deleted ++ [g] }

/-- A thread uses a global; what a deleted one would do is not said. -/
def use (s : CoreGlobal Name) (t : ℕ) (g : Global) (next : Option (CoreGlobal Name)) :
    Option (CoreGlobal Name) :=
  if s.gThreadManager.Acts t then
    if g ∈ s.deleted then some { s with late := s.late ++ [(t, g)] } else next
  else none

variable [DecidableEq Name]

def step (s : CoreGlobal Name) (a : Act Name) : Option (CoreGlobal Name) :=
  if s.crashed ≠ none ∨ s.gThreadManager.halted then none
  else
    match a with
    -- a callback returns, and a thread launches or joins, outside of `Allocate` and `Release`
    | .manager a =>
      if ∀ t ∈ a.caller, s.gMemory.pc t = .idle then
        (s.gThreadManager.step a).map fun gThreadManager => { s with gThreadManager }
      else none
    | .memory t a =>
      if ∀ u ∈ a.thread, u = t then
        s.use t .gMemory ((s.gMemory.step a).map fun gMemory => { s with gMemory })
      else none
    | .profiler t call =>
      s.use t .gDeadLockProfiler <|
        match s.gDeadLockProfiler.call call with
        | .ok gDeadLockProfiler => some { s with gDeadLockProfiler }
        | .error fault => some { s with crashed := some fault }
    | .winSock t => s.use t .winSock (some s)
    | .delete =>
      if s.gThreadManager.life = .ended then (order[s.deleted.length]?).map s.delete else none

variable (Name) in
/-- The process from the end of `CoreGlobal()`, before which there is no thread but the main one. -/
def machine : Machine (CoreGlobal Name) (Act Name) where
  start := {}
  step := step

/-- What `~Memory` leaves of the memory. -/
structure Torn (s : CoreGlobal Name) : Prop where
  once : s.freed.Nodup
  leaves : s.gMemory.heap.allocated.Perm (s.gMemory.live.map Memory.Handle.header)
  empty : ∀ p, s.gMemory.heap.header p = []

structure Inv (s : CoreGlobal Name) : Prop where
  kept : s.gThreadManager.halted = false → s.gThreadManager.Kept
  inside : ∀ t, s.gMemory.pc t ≠ .idle → s.gThreadManager.Acts t
  ended : s.deleted ≠ [] → s.gThreadManager.life = .ended ∧ s.gThreadManager.halted = false
  order : s.deleted <+: order
  whole : .gMemory ∉ s.deleted → ∃ owner, Memory.Inv owner s.gMemory
  torn : .gMemory ∈ s.deleted → s.Torn
  late : s.late = []

variable {s s' : CoreGlobal Name}

omit [DecidableEq Name] in
theorem inv_start : Inv ({} : CoreGlobal Name) where
  kept _ := ThreadJoin.Process.kept_start
  inside _ h := absurd rfl h
  ended h := absurd rfl h
  order := List.nil_prefix
  whole _ := ⟨_, Memory.inv_start⟩
  torn h := by cases h
  late := rfl

omit [DecidableEq Name] in
/-- While a thread acts, nothing has been deleted. -/
theorem Inv.not_deleted (hinv : Inv s) {t : ℕ} (hacts : s.gThreadManager.Acts t) :
    s.deleted = [] := by
  by_contra hdeleted
  obtain ⟨hended, hgoing⟩ := hinv.ended hdeleted
  exact (hinv.kept hgoing).not_acts hended t hacts

omit [DecidableEq Name] in
/-- A thread that uses a global finds it whole. -/
theorem Inv.use_spec (hinv : Inv s) {t : ℕ} {g : Global} {next : Option (CoreGlobal Name)}
    (huse : s.use t g next = some s') : s.gThreadManager.Acts t ∧ s.deleted = [] ∧ next = some s' := by
  obtain ⟨hacts, huse⟩ := Option.ite_none_right_eq_some.mp huse
  have hnone := hinv.not_deleted hacts
  rw [if_neg (by simp [hnone])] at huse
  exact ⟨hacts, hnone, huse⟩

omit [DecidableEq Name] in
theorem Inv.manager (hinv : Inv s) {a : ThreadJoin.Act} {manager : ThreadJoin.Process}
    (haway : ∀ t ∈ a.caller, s.gMemory.pc t = .idle) (hstep : s.gThreadManager.step a = some manager) :
    Inv { s with gThreadManager := manager } where
  kept hgoing := (hinv.kept (ThreadJoin.Process.going_of_step hstep)).step hstep hgoing
  inside t ht := (hinv.inside t ht).step hstep fun hcaller => ht (haway t hcaller)
  ended hdeleted := by
    obtain ⟨hended, hgoing⟩ := hinv.ended hdeleted
    exact (hinv.kept hgoing).step_ended hended hstep
  order := hinv.order
  whole := hinv.whole
  torn h := ⟨(hinv.torn h).once, (hinv.torn h).leaves, (hinv.torn h).empty⟩
  late := hinv.late

omit [DecidableEq Name] in
/-- A thread that is in `Allocate` or `Release` afterwards was there before, or it is the one that
acts. -/
theorem Inv.memory (hinv : Inv s) {t : ℕ} (hacts : s.gThreadManager.Acts t) {a : Memory.Act ℕ}
    (howner : ∀ u ∈ a.thread, u = t) {memory : Memory.Threads ℕ}
    (hstep : s.gMemory.step a = some memory) : Inv { s with gMemory := memory } where
  kept := hinv.kept
  inside u hu := by
    by_cases hut : u = t
    · exact hut ▸ hacts
    · have hother : a.thread ≠ some u := fun h => hut (howner u h)
      exact hinv.inside u (Memory.Threads.pc_of_step hstep hother ▸ hu)
  ended := hinv.ended
  order := hinv.order
  whole h := Memory.Inv.step (hinv.whole h) hstep
  torn h := by
    rw [hinv.not_deleted hacts] at h
    cases h
  late := hinv.late

omit [DecidableEq Name] in
/-- At the time of the deletions every thread stands outside of `Allocate` and `Release`. -/
theorem Inv.idle (hinv : Inv s) (hended : s.gThreadManager.life = .ended)
    (hgoing : s.gThreadManager.halted = false) (t : ℕ) : s.gMemory.pc t = .idle := by
  by_contra hinside
  exact (hinv.kept hgoing).not_acts hended t (hinv.inside t hinside)

theorem prefix_next {deleted : List Global} {g : Global} (hfront : deleted <+: order)
    (hnext : order[deleted.length]? = some g) : deleted ++ [g] <+: order ∧ g ∉ deleted := by
  have htake : deleted = order.take deleted.length := List.prefix_iff_eq_take.mp hfront
  have hmore : deleted ++ [g] <+: order := by
    have hsucc := List.take_add_one (l := order) (i := deleted.length)
    rw [hnext, ← htake, Option.toList_some] at hsucc
    exact hsucc ▸ List.take_prefix ..
  have hnodup : (deleted ++ [g]).Nodup := hmore.sublist.nodup (by decide)
  exact ⟨hmore, fun hmem => (List.nodup_append.mp hnodup).2.2 g hmem g (List.mem_singleton_self g) rfl⟩

omit [DecidableEq Name] in
theorem Inv.delete_gMemory (hinv : Inv s) (hended : s.gThreadManager.life = .ended)
    (hgoing : s.gThreadManager.halted = false)
    (hnext : CoreGlobal.order[s.deleted.length]? = some .gMemory) : Inv (s.delete .gMemory) := by
  obtain ⟨hfront, hfirst⟩ := prefix_next hinv.order hnext
  obtain ⟨owner, hmemory⟩ := hinv.whole hfirst
  obtain ⟨honce, -, hleaves, hempty⟩ := hmemory.destroyed (hinv.idle hended hgoing)
  have hmem : Global.gMemory ∈ s.deleted ++ [.gMemory] := by simp
  rw [CoreGlobal.delete]
  generalize s.gMemory.heap.destroy = teardown at *
  exact ⟨hinv.kept, hinv.inside, fun _ => ⟨hended, hgoing⟩, hfront, fun h => absurd hmem h,
    fun _ => ⟨honce, hleaves, hempty⟩, hinv.late⟩

omit [DecidableEq Name] in
theorem Inv.delete_other (hinv : Inv s) {g : Global} (hother : g ≠ .gMemory)
    (hended : s.gThreadManager.life = .ended) (hgoing : s.gThreadManager.halted = false)
    (hnext : CoreGlobal.order[s.deleted.length]? = some g) :
    Inv { s with deleted := s.deleted ++ [g] } := by
  have hmem : Global.gMemory ∈ s.deleted ++ [g] ↔ Global.gMemory ∈ s.deleted := by
    simp [hother.symm]
  exact ⟨hinv.kept, hinv.inside, fun _ => ⟨hended, hgoing⟩, (prefix_next hinv.order hnext).1,
    fun h => hinv.whole fun h' => h (hmem.mpr h'),
    fun h => ⟨(hinv.torn (hmem.mp h)).once, (hinv.torn (hmem.mp h)).leaves,
      (hinv.torn (hmem.mp h)).empty⟩, hinv.late⟩

theorem Inv.step (hinv : Inv s) {a : Act Name} (hstep : s.step a = some s') : Inv s' := by
  obtain ⟨hcrashed, hstep⟩ := Option.ite_none_left_eq_some.mp hstep
  have hgoing : s.gThreadManager.halted = false := by
    by_contra h
    exact hcrashed (.inr (by simpa using h))
  cases a with
  | manager a =>
    obtain ⟨haway, hstep⟩ := Option.ite_none_right_eq_some.mp hstep
    obtain ⟨manager, hmanager, rfl⟩ := Option.map_eq_some_iff.mp hstep
    exact hinv.manager haway hmanager
  | memory t a =>
    obtain ⟨howner, huse⟩ := Option.ite_none_right_eq_some.mp hstep
    obtain ⟨hacts, -, hnext⟩ := hinv.use_spec huse
    obtain ⟨memory, hmemory, rfl⟩ := Option.map_eq_some_iff.mp hnext
    exact hinv.memory hacts howner hmemory
  | profiler t call =>
    obtain ⟨-, hnone, hnext⟩ := hinv.use_spec hstep
    have htorn : .gMemory ∉ s.deleted := by simp [hnone]
    split at hnext
    all_goals
      cases hnext
      exact ⟨hinv.kept, hinv.inside, hinv.ended, hinv.order, hinv.whole,
        fun h => absurd h htorn, hinv.late⟩
  | winSock t =>
    obtain ⟨-, -, hnext⟩ := hinv.use_spec hstep
    cases hnext
    exact hinv
  | delete =>
    obtain ⟨hended, hstep⟩ := Option.ite_none_right_eq_some.mp hstep
    obtain ⟨g, hnext, rfl⟩ := Option.map_eq_some_iff.mp hstep
    cases g with
    | gMemory => exact hinv.delete_gMemory hended hgoing hnext
    | gDeadLockProfiler => exact hinv.delete_other nofun hended hgoing hnext
    | winSock => exact hinv.delete_other nofun hended hgoing hnext

end CoreGlobal

end CppServer
