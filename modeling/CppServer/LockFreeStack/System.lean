import CppServer.Base.Linked
import CppServer.Base.Machine
import CppServer.LockFreeStack.Steps

namespace CppServer.LockFreeStack

open Function Base

/-- The step was a successful exchange. -/
def Pc.exchanged : Pc → Pc → ℕ
  | .pushExchange _ _, .done _ => 1
  | .popExchange _ _, .done _ => 1
  | _, _ => 0

/-- One header and the threads that use it. `held` are the entries that callers
own. `exchanges` counts the successful exchanges, and `begun` is that count at
the start of a thread's call; both are bookkeeping. -/
structure Threads (T : Type) where
  memory : Memory
  held : Addr → Bool
  pc : T → Pc := fun _ => .idle
  exchanges : ℕ := 0
  begun : T → ℕ := fun _ => 0

/-- A push takes an aligned entry that a caller owns. -/
def Op.Allowed (held : Addr → Bool) : Op → Prop
  | .push entry => held entry = true ∧ Aligned entry ∧ entry ≠ 0
  | .pop => True

instance (held : Addr → Bool) : (op : Op) → Decidable (op.Allowed held)
  | .push _ => inferInstanceAs (Decidable (_ ∧ _ ∧ _))
  | .pop => isTrue trivial

/-- The entries left with callers when a call starts, and when one returns. -/
def Op.taken (held : Addr → Bool) : Op → Addr → Bool
  | .push entry => update held entry false
  | .pop => held

def Pc.returned (held : Addr → Bool) : Pc → Addr → Bool
  | .done (.popped (some entry)) => update held entry true
  | _ => held

/-- A label: a thread enters a function or takes its next step, or the owner of
an entry writes over it. -/
inductive Act (T : Type)
  | call (t : T) (op : Op)
  | run (t : T) (half : Half)
  | scribble (entry value : Addr)
deriving DecidableEq

namespace Threads

variable {T : Type} [DecidableEq T]

def step (s : Threads T) : Act T → Option (Threads T)
  | .call t op =>
    if s.pc t = .idle ∧ op.Allowed s.held then
      some { s with
        held := op.taken s.held
        pc := update s.pc t op.entryPoint
        begun := update s.begun t s.exchanges }
    else none
  | .run t half =>
    match LockFreeStack.step half s.memory (s.pc t) with
    | some (memory, pc) =>
      some { s with
        memory := memory
        held := (s.pc t).returned s.held
        pc := update s.pc t pc
        exchanges := s.exchanges + (s.pc t).exchanged pc }
    | none => none
  | .scribble entry value =>
    if s.held entry = true then
      some { s with memory := { s.memory with next := update s.memory.next entry value } }
    else none

/-- Any number of threads over a header that has been initialised, with entries
in the hands of the callers. -/
def machine (T : Type) [DecidableEq T] (memory : Memory) (held : Addr → Bool) :
    Machine (Threads T) (Act T) where
  start := { memory := initializeHead memory, held }
  step := step

/-- Fewer than 2^48 successful exchanges have happened since each call began. -/
def WithinSequence (s : Threads T) : Prop :=
  ∀ t, s.pc t ≠ .idle → s.exchanges - s.begun t < 2 ^ 48

theorem step_run {s s' : Threads T} {t : T} {half : Half} (hstep : step s (.run t half) = some s') :
    ∃ memory pc, LockFreeStack.step half s.memory (s.pc t) = some (memory, pc) ∧
      s' = { s with
        memory := memory
        held := (s.pc t).returned s.held
        pc := update s.pc t pc
        exchanges := s.exchanges + (s.pc t).exchanged pc } := by
  simp only [step] at hstep
  cases hcode : LockFreeStack.step half s.memory (s.pc t) with
  | none =>
    rw [hcode] at hstep
    cases hstep
  | some next =>
    rw [hcode] at hstep
    cases hstep
    exact ⟨next.1, next.2, rfl, rfl⟩

end Threads

/-- A call of the atomic stack: not begun, begun, or past its effect. -/
inductive Status
  | idle
  | pushing (entry : Addr)
  | popping
  | done (result : Result)
deriving DecidableEq

/-- The abstract stack: a list, and for each thread where its call is. -/
structure Atomic (T : Type) where
  stack : List Addr := []
  status : T → Status := fun _ => .idle

inductive Event (T : Type)
  | invoke (t : T) (op : Op)
  | commit (t : T)
  | ret (t : T) (result : Result)
deriving DecidableEq

def Op.status : Op → Status
  | .push entry => .pushing entry
  | .pop => .popping

namespace Atomic

variable {T : Type} [DecidableEq T]

/-- The effect of a call, at one instant: a push puts its entry on top, a pop
takes the top, or finds the stack empty and leaves it. -/
def commit (stack : List Addr) : Status → Option (List Addr × Status)
  | .pushing entry => some (entry :: stack, .done .pushed)
  | .popping =>
    match stack with
    | [] => some ([], .done (.popped none))
    | entry :: rest => some (rest, .done (.popped (some entry)))
  | .idle | .done _ => none

def step (s : Atomic T) : Event T → Option (Atomic T)
  | .invoke t op =>
    if s.status t = .idle then some { s with status := update s.status t op.status } else none
  | .commit t =>
    match commit s.stack (s.status t) with
    | some (stack, status) => some { stack, status := update s.status t status }
    | none => none
  | .ret t result =>
    if s.status t = .done result then some { s with status := update s.status t .idle } else none

/-- The atomic stack. Every call takes effect exactly once between its invocation
and its return. -/
def machine (T : Type) [DecidableEq T] : Machine (Atomic T) (Event T) where
  start := {}
  step := step

end Atomic

variable {T : Type}

/-- Where a call takes effect: at its successful exchange, and a pop that will
return null where it reads the region of an empty stack. -/
def linearize (s : Threads T) : Act T → Threads T → Option (Event T)
  | .call t op, _ => some (.invoke t op)
  | .run t half, s' =>
    match s.pc t, s'.pc t with
    | .pushExchange _ _, .done _ => some (.commit t)
    | .popExchange _ _, .done _ => some (.commit t)
    | .popRead _ _, _ =>
      if half = .region ∧ entryOf s.memory.header.region.next = 0 then some (.commit t) else none
    | .done result, _ => some (.ret t result)
    | _, _ => none
  | .scribble _ _, _ => none

end CppServer.LockFreeStack
