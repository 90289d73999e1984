import CppServer.Base.Machine
import CppServer.Lock.Steps

namespace CppServer

/-- Thread ids that fit the upper half of the lock word and tell the threads
apart. -/
structure ThreadIds (T : Type) where
  lThreadId : T → BitVec 32
  positive : ∀ t, 0 < (lThreadId t).toNat
  narrow : ∀ t, (lThreadId t).toNat ≤ 65535
  injective : Function.Injective lThreadId

/-- An outstanding acquisition: its lock call has returned and its unlock call
has not. -/
inductive Hold
  | write
  | read
deriving DecidableEq, Repr

/-- What returning from a call does to the caller's holds, latest first. -/
def Op.settle : Op → List Hold → List Hold
  | .writeLock, holds => .write :: holds
  | .readLock, holds => .read :: holds
  | .writeUnlock, holds => holds.tail
  | .readUnlock, holds => holds.tail

/-- The guards' discipline: an unlock call releases the caller's latest hold. -/
def Op.Allowed : Op → List Hold → Prop
  | .writeLock, _ => True
  | .readLock, _ => True
  | .writeUnlock, holds => holds.head? = some .write
  | .readUnlock, holds => holds.head? = some .read

instance : (op : Op) → (holds : List Hold) → Decidable (op.Allowed holds)
  | .writeLock, _ => isTrue trivial
  | .readLock, _ => isTrue trivial
  | .writeUnlock, holds => inferInstanceAs (Decidable (holds.head? = some .write))
  | .readUnlock, holds => inferInstanceAs (Decidable (holds.head? = some .read))

namespace Lock

/-- One lock and its threads. `holds` is bookkeeping that no step of the code
reads; `crashed` ends the run. -/
structure Threads (T : Type) where
  lock : Lock := {}
  pc : T → Pc := fun _ => .idle
  holds : T → List Hold := fun _ => []
  crashed : Option Cause := none

/-- A label: a thread enters one of the functions, or takes its next step,
reading `tick` if that step reads the clock. -/
inductive Act (T : Type)
  | call (t : T) (op : Op)
  | run (t : T) (tick : BitVec 64)
deriving DecidableEq

/-- The holds of a thread after its program counter moved from `pc` to `next`:
they change when the call returns. -/
def settled (pc next : Pc) (holds : List Hold) : List Hold :=
  match next, pc.op with
  | .idle, some op => op.settle holds
  | _, _ => holds

theorem settled_of_ne {pc next : Pc} (holds : List Hold) (hnext : next ≠ .idle) :
    settled pc next holds = holds := by
  cases next with
  | idle => exact absurd rfl hnext
  | _ => rfl

variable {T : Type} [DecidableEq T]

def Threads.step (ids : ThreadIds T) (s : Threads T) : Act T → Option (Threads T)
  | .call t op =>
    if s.crashed = none ∧ s.pc t = .idle ∧ op.Allowed (s.holds t) then
      some { s with pc := Function.update s.pc t op.entry }
    else none
  | .run t tick =>
    if s.crashed = none ∧ s.pc t ≠ .idle then
      match Lock.step (ids.lThreadId t) tick s.lock (s.pc t) with
      | .error cause => some { s with crashed := some cause }
      | .ok (lock, pc) =>
        some { s with
          lock := lock
          pc := Function.update s.pc t pc
          holds := Function.update s.holds t (settled (s.pc t) pc (s.holds t)) }
    else none

/-- Any number of threads over one fresh lock, interleaved step by step. -/
def machine (ids : ThreadIds T) : Base.Machine (Threads T) (Act T) where
  start := {}
  step := Threads.step ids

/-- Entering a call changes the caller's program counter only. -/
theorem Threads.step_call {ids : ThreadIds T} {s s' : Threads T} {t : T} {op : Op}
    (hstep : Threads.step ids s (.call t op) = some s') :
    s.crashed = none ∧ s.pc t = .idle ∧ op.Allowed (s.holds t) ∧
      s' = { s with pc := Function.update s.pc t op.entry } := by
  simp only [Threads.step] at hstep
  split at hstep
  case isTrue h =>
    cases hstep
    exact ⟨h.1, h.2.1, h.2.2, rfl⟩
  case isFalse => cases hstep

/-- A step inside a call either crashes and changes nothing else, or is the
lock's step. -/
theorem Threads.step_run {ids : ThreadIds T} {s s' : Threads T} {t : T} {tick : BitVec 64}
    (hstep : Threads.step ids s (.run t tick) = some s') :
    s.crashed = none ∧ s.pc t ≠ .idle ∧
      ((∃ cause, Lock.step (ids.lThreadId t) tick s.lock (s.pc t) = .error cause ∧
          s' = { s with crashed := some cause }) ∨
        ∃ lock pc, Lock.step (ids.lThreadId t) tick s.lock (s.pc t) = .ok (lock, pc) ∧
          s' = { s with
            lock := lock
            pc := Function.update s.pc t pc
            holds := Function.update s.holds t (settled (s.pc t) pc (s.holds t)) }) := by
  simp only [Threads.step] at hstep
  split at hstep
  case isTrue h =>
    refine ⟨h.1, h.2, ?_⟩
    cases hlock : Lock.step (ids.lThreadId t) tick s.lock (s.pc t) with
    | error cause =>
      rw [hlock] at hstep
      cases hstep
      exact .inl ⟨cause, rfl, rfl⟩
    | ok next =>
      rw [hlock] at hstep
      cases hstep
      exact .inr ⟨next.1, next.2, rfl, rfl⟩
  case isFalse => cases hstep

/-- The numbers of outstanding write and read holds of one thread. -/
def writes (holds : List Hold) : ℕ := holds.count .write

def reads (holds : List Hold) : ℕ := holds.count .read

@[simp] theorem writes_write (holds : List Hold) : writes (.write :: holds) = writes holds + 1 := by
  simp [writes]

@[simp] theorem writes_read (holds : List Hold) : writes (.read :: holds) = writes holds := by
  simp [writes]

@[simp] theorem reads_write (holds : List Hold) : reads (.write :: holds) = reads holds := by
  simp [reads]

@[simp] theorem reads_read (holds : List Hold) : reads (.read :: holds) = reads holds + 1 := by
  simp [reads]

theorem writes_pos_of_head {holds : List Hold} (hhead : holds.head? = some .write) :
    0 < writes holds := by
  obtain ⟨rest, rfl⟩ := List.head?_eq_some_iff.mp hhead
  simp

/-- All outstanding read holds. -/
def Threads.readers [Fintype T] (s : Threads T) : ℕ := ∑ t, reads (s.holds t)

end Lock

end CppServer
