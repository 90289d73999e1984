import CppServer.DeadLockProfiler.Ordering
import CppServer.Lock.Refinement

namespace CppServer.Locks

open Function Base DeadLockProfiler

/-- Where a thread is: in no function of a lock, before the profiler call with which the debug
build begins the function, or behind it. -/
inductive Place (L : Type)
  | outside
  | profile (l : L) (op : Op)
  | code (l : L) (pc : Pc)
deriving DecidableEq

/-- The lock and the function that a thread is in. -/
def Place.call {L : Type} : Place L → Option (L × Op)
  | .outside => none
  | .profile l op => some (l, op)
  | .code l pc => pc.op.map fun op => (l, op)

/-- Where a thread is in the code of one lock. -/
def Place.inside {L : Type} [DecidableEq L] (l : L) : Place L → Pc
  | .code l' pc => if l' = l then pc else .idle
  | .outside | .profile _ _ => .idle

/-- A function begins with the profiler call in the debug build only. -/
def Place.enter {L : Type} (debug : Bool) (l : L) (op : Op) : Place L :=
  if debug then .profile l op else .code l op.entry

/-- What a function tells the profiler. -/
def profiled {Name : Type} (name : Name) : Op → Call Name
  | .writeLock | .readLock => .push name
  | .writeUnlock | .readUnlock => .pop name

/-- Many locks, the profiler, and the threads that use them. `holds` are the outstanding holds of
a thread, latest first, and `calls` are the profiler's calls so far; both are bookkeeping. -/
structure Threads (T L Name : Type) where
  lock : L → Lock := fun _ => {}
  profiler : Profiler Name := {}
  place : T → Place L := fun _ => .outside
  holds : T → List (L × Hold) := fun _ => []
  calls : List (Call Name) := []
  crashed : Option (Fault (Option Name)) := none

/-- A label: a thread calls a function of a lock, or takes its next step, reading `tick` if that
step reads the clock. -/
inductive Act (T L : Type)
  | call (t : T) (l : L) (op : Op)
  | run (t : T) (tick : BitVec 64)
deriving DecidableEq

section Holds

variable {L : Type}

/-- An unlock call releases the caller's latest hold, of whatever lock, as the guards of nested
scopes do. -/
def Allowed (l : L) : Op → List (L × Hold) → Prop
  | .writeLock, _ => True
  | .readLock, _ => True
  | .writeUnlock, holds => holds.head? = some (l, .write)
  | .readUnlock, holds => holds.head? = some (l, .read)

instance decidableAllowed [DecidableEq L] (l : L) :
    (op : Op) → (holds : List (L × Hold)) → Decidable (Allowed l op holds)
  | .writeLock, _ => isTrue trivial
  | .readLock, _ => isTrue trivial
  | .writeUnlock, holds => inferInstanceAs (Decidable (holds.head? = some (l, .write)))
  | .readUnlock, holds => inferInstanceAs (Decidable (holds.head? = some (l, .read)))

/-- What returning from a call does to the caller's holds. -/
def settle (l : L) : Op → List (L × Hold) → List (L × Hold)
  | .writeLock, holds => (l, .write) :: holds
  | .readLock, holds => (l, .read) :: holds
  | .writeUnlock, holds => holds.tail
  | .readUnlock, holds => holds.tail

/-- The holds of a thread after its program counter moved from `pc` to `next`. -/
def settled (l : L) (pc next : Pc) (holds : List (L × Hold)) : List (L × Hold) :=
  match next, pc.op with
  | .idle, some op => settle l op holds
  | _, _ => holds

/-- The holds of one lock. -/
def ofLock [DecidableEq L] (l : L) (holds : List (L × Hold)) : List Hold :=
  holds.filterMap fun hold => if hold.1 = l then some hold.2 else none

end Holds

variable {T L Name : Type} [DecidableEq T] [DecidableEq L] [DecidableEq Name]

/-- The state after a step inside the code of a lock. -/
def Threads.after (s : Threads T L Name) (t : T) (l : L) (pc : Pc) (lock : Lock) (next : Pc) :
    Threads T L Name :=
  { s with
    lock := update s.lock l lock
    place := update s.place t (if next = .idle then .outside else .code l next)
    holds := update s.holds t (settled l pc next (s.holds t)) }

def Threads.step (ids : ThreadIds T) (name : L → Name) (debug : Bool) (s : Threads T L Name) :
    Act T L → Option (Threads T L Name)
  | .call t l op =>
    if s.crashed = none ∧ s.place t = .outside ∧ Allowed l op (s.holds t) then
      some { s with place := update s.place t (.enter debug l op) }
    else none
  | .run t tick =>
    if s.crashed = none then
      match s.place t with
      | .outside => none
      | .profile l op =>
        -- the profiler's mutex makes its call one step
        match s.profiler.call (profiled (name l) op) with
        | .error fault => some { s with crashed := some fault }
        | .ok profiler =>
          some { s with
            profiler
            calls := s.calls ++ [profiled (name l) op]
            place := update s.place t (.code l op.entry) }
      | .code l pc =>
        match Lock.step (ids.lThreadId t) tick (s.lock l) pc with
        | .error cause => some { s with crashed := some (.crash cause []) }
        | .ok (lock, next) => some (s.after t l pc lock next)
    else none

/-- Any number of threads over any number of fresh locks, in either build. -/
def machine (ids : ThreadIds T) (name : L → Name) (debug : Bool) :
    Machine (Threads T L Name) (Act T L) where
  start := {}
  step := Threads.step ids name debug

variable {ids : ThreadIds T} {name : L → Name} {debug : Bool} {s s' : Threads T L Name} {t : T}
  {l : L}

theorem step_call {op : Op} (hstep : Threads.step ids name debug s (.call t l op) = some s') :
    s.crashed = none ∧ s.place t = .outside ∧ Allowed l op (s.holds t) ∧
      s' = { s with place := update s.place t (.enter debug l op) } := by
  simp only [Threads.step] at hstep
  split at hstep
  case isTrue h =>
    cases hstep
    exact ⟨h.1, h.2.1, h.2.2, rfl⟩
  case isFalse => cases hstep

/-- A step inside a call is a crash, or the call of the profiler, or a step of the lock's code. -/
theorem step_run {tick : BitVec 64}
    (hstep : Threads.step ids name debug s (.run t tick) = some s') :
    s.crashed = none ∧
      ((∃ fault, s' = { s with crashed := some fault }) ∨
        (∃ l op profiler, s.place t = .profile l op ∧
          s.profiler.call (profiled (name l) op) = .ok profiler ∧
          s' = { s with
            profiler
            calls := s.calls ++ [profiled (name l) op]
            place := update s.place t (.code l op.entry) }) ∨
        ∃ l pc lock next, s.place t = .code l pc ∧
          Lock.step (ids.lThreadId t) tick (s.lock l) pc = .ok (lock, next) ∧
          s' = s.after t l pc lock next) := by
  simp only [Threads.step] at hstep
  split at hstep
  case isFalse => cases hstep
  case isTrue hcrashed =>
    refine ⟨hcrashed, ?_⟩
    split at hstep
    case h_1 => cases hstep
    case h_2 l op hplace =>
      split at hstep
      case h_1 fault _ =>
        cases hstep
        exact .inl ⟨fault, rfl⟩
      case h_2 profiler hcall =>
        cases hstep
        exact .inr (.inl ⟨l, op, profiler, hplace, hcall, rfl⟩)
    case h_3 l pc hplace =>
      split at hstep
      case h_1 cause _ =>
        cases hstep
        exact .inl ⟨.crash cause [], rfl⟩
      case h_2 lock next hlock =>
        cases hstep
        exact .inr (.inr ⟨l, pc, lock, next, hplace, hlock, rfl⟩)

/-- One of the locks with the threads that are in its code. -/
def Threads.view (s : Threads T L Name) (l : L) : Lock.Threads T where
  lock := s.lock l
  pc t := (s.place t).inside l
  holds t := ofLock l (s.holds t)

/-- The bounds on use hold for each lock. -/
def Threads.WithinLimits [Fintype T] (s : Threads T L Name) : Prop :=
  ∀ l, (s.view l).WithinLimits

instance [Fintype T] [Fintype L] (s : Threads T L Name) : Decidable s.WithinLimits :=
  inferInstanceAs (Decidable (∀ _, _))

end CppServer.Locks
