import CppServer.Base.Machine
import CppServer.RefCounting.Steps

namespace CppServer.RefCounting

open Function Base

variable {T V O : Type}

def Next.vars : Next V → List V
  | .copy rhs => [rhs]
  | .move rhs => [rhs]
  | .destroy => []

/-- The variables that an operation still uses. -/
def Pc.vars : Pc V O → List V
  | .idle => []
  | .compare x rhs | .set x rhs | .take x rhs | .drop x rhs => [x, rhs]
  | .release x next | .clear x next => x :: next.vars
  | .releaseRef _ (some (x, next)) | .deleteThis _ (some (x, next)) => x :: next.vars
  | .releaseRef _ none | .deleteThis _ none => []
  | .setRaw x _ => [x]
  | .addRef x _ rhs => x :: rhs.toList

/-- The variable whose pointer `_refCount` does not count at this place: it has not
been counted yet, or no longer is, or is about to lose its pointer to another. -/
def Pc.uncounted : Pc V O → Option V
  | .deleteThis _ (some (x, _)) => some x
  | .clear x _ | .addRef x _ _ => some x
  | .drop _ rhs => some rhs
  | _ => none

/-- The heap and the threads that use it. The other members are bookkeeping: which
variables are constructed, which objects have been created, whose creator still has
the initial reference, and whether a deleted object was accessed. -/
structure Threads (T V O : Type) where
  heap : Heap V O := ⟨fun _ => none, fun _ => 0, fun _ => 0⟩
  pc : T → Pc V O := fun _ => .idle
  constructed : V → Bool := fun _ => false
  created : O → Bool := fun _ => false
  initial : O → Bool := fun _ => false
  faulted : Bool := false

/-- A label: `new` on an object, or a thread begins an operation or takes its next
step. -/
inductive Act (T V O : Type)
  | create (o : O)
  | call (t : T) (op : Op V O)
  | run (t : T)
deriving DecidableEq

def Op.vars : Op V O → List V
  | .construct x _ | .destroy x => [x]
  | .copyConstruct x rhs | .moveConstruct x rhs | .copyAssign x rhs | .moveAssign x rhs => [x, rhs]
  | .releaseRef _ => []

/-- A constructor needs storage without a variable and every other operation needs
variables; a raw pointer is to an object that has not been deleted; the creator
releases once. -/
def Op.Allowed (s : Threads T V O) : Op V O → Prop
  | .construct x ptr => s.constructed x = false ∧
      ∀ o ∈ ptr, s.created o = true ∧ s.heap.deletes o = 0
  | .copyConstruct x rhs => s.constructed x = false ∧ s.constructed rhs = true
  | .moveConstruct x rhs => s.constructed x = false ∧ s.constructed rhs = true
  | .copyAssign x rhs => s.constructed x = true ∧ s.constructed rhs = true
  | .moveAssign x rhs => s.constructed x = true ∧ s.constructed rhs = true
  | .destroy x => s.constructed x = true
  | .releaseRef o => s.initial o = true ∧ ∀ t, s.pc t ≠ .releaseRef o none

section

variable [DecidableEq V]

/-- The variables there are once the operation has begun. -/
def Op.constructs (constructed : V → Bool) : Op V O → V → Bool
  | .construct x _ | .copyConstruct x _ | .moveConstruct x _ => update constructed x true
  | .destroy x => update constructed x false
  | .copyAssign _ _ | .moveAssign _ _ | .releaseRef _ => constructed

variable [DecidableEq O]

/-- The initial references that are left after a step at this place. -/
def Pc.left (initial : O → Bool) : Pc V O → O → Bool
  | .releaseRef o none => update initial o false
  | _ => initial

instance [Fintype T] (s : Threads T V O) : (op : Op V O) → Decidable (op.Allowed s)
  | .construct _ _ => inferInstanceAs (Decidable (_ ∧ _))
  | .copyConstruct _ _ => inferInstanceAs (Decidable (_ ∧ _))
  | .moveConstruct _ _ => inferInstanceAs (Decidable (_ ∧ _))
  | .copyAssign _ _ => inferInstanceAs (Decidable (_ ∧ _))
  | .moveAssign _ _ => inferInstanceAs (Decidable (_ ∧ _))
  | .destroy _ => inferInstanceAs (Decidable (_ = _))
  | .releaseRef _ => inferInstanceAs (Decidable (_ ∧ _))

end

/-- How many variables have a pointer to an object. -/
def count [Fintype V] [DecidableEq O] (ptr : V → Option O) (o : O) : ℕ :=
  ∑ x, if ptr x = some o then 1 else 0

/-- Whether the next step is `delete this` on the object. -/
def Pc.deletes [DecidableEq O] (o : O) : Pc V O → ℕ
  | .deleteThis o' _ => if o' = o then 1 else 0
  | _ => 0

namespace Threads

variable [DecidableEq T] [Fintype T] [DecidableEq V] [DecidableEq O]

def step (s : Threads T V O) : Act T V O → Option (Threads T V O)
  | .create o =>
    if s.faulted = false ∧ s.created o = false then
      some { s with
        heap := { s.heap with refCount := update s.heap.refCount o 1 }
        created := update s.created o true
        initial := update s.initial o true }
    else none
  | .call t op =>
    if s.faulted = false ∧ s.pc t = .idle ∧ op.Allowed s ∧ ∀ u, ∀ x ∈ op.vars, x ∉ (s.pc u).vars then
      some { s with
        pc := update s.pc t op.entry
        constructed := op.constructs s.constructed }
    else none
  | .run t =>
    if s.faulted = false ∧ s.pc t ≠ .idle then
      match RefCounting.step s.heap (s.pc t) with
      | some (heap, pc) =>
        some { s with heap, pc := update s.pc t pc, initial := (s.pc t).left s.initial }
      | none => some { s with faulted := true }
    else none

/-- Any number of threads, before the first object and the first variable. -/
def machine (T V O : Type) [DecidableEq T] [Fintype T] [DecidableEq V] [DecidableEq O] :
    Machine (Threads T V O) (Act T V O) where
  start := {}
  step := step

/-- The pointer of a variable, as far as `_refCount` counts it. -/
def counted (s : Threads T V O) (x : V) : Option O :=
  if ∃ t, (s.pc t).uncounted = some x then none else s.heap.ptr x

/-- The references to an object: the counted pointers and the initial one. -/
def refs [Fintype V] (s : Threads T V O) (o : O) : ℕ := count s.counted o + (s.initial o).toNat

/-- The calls that are about to run `delete this` on an object. -/
def deleting (s : Threads T V O) (o : O) : ℕ := ∑ t, (s.pc t).deletes o

/-- The condition on the states of a run. There are fewer than 2^31 references to
an object, and one at least while a constructor that was given a raw pointer is
about to add its own. -/
structure Careful [Fintype V] (s : Threads T V O) : Prop where
  few : ∀ o, s.refs o < 2 ^ 31
  alive : ∀ t x o, s.pc t = .addRef x o none → 0 < s.refs o

theorem step_create {s s' : Threads T V O} {o : O} (hstep : step s (.create o) = some s') :
    s.created o = false ∧ s' = { s with
      heap := { s.heap with refCount := update s.heap.refCount o 1 }
      created := update s.created o true
      initial := update s.initial o true } := by
  simp only [step] at hstep
  split at hstep
  case isTrue h =>
    cases hstep
    exact ⟨h.2, rfl⟩
  case isFalse => cases hstep

theorem step_call {s s' : Threads T V O} {t : T} {op : Op V O}
    (hstep : step s (.call t op) = some s') :
    s.pc t = .idle ∧ op.Allowed s ∧ (∀ u, ∀ x ∈ op.vars, x ∉ (s.pc u).vars) ∧ s' = { s with
      pc := update s.pc t op.entry
      constructed := op.constructs s.constructed } := by
  simp only [step] at hstep
  split at hstep
  case isTrue h =>
    cases hstep
    exact ⟨h.2.1, h.2.2.1, h.2.2.2, rfl⟩
  case isFalse => cases hstep

/-- A step inside an operation either accesses a deleted object or is the code's. -/
theorem step_run {s s' : Threads T V O} {t : T} (hstep : step s (.run t) = some s') :
    (RefCounting.step s.heap (s.pc t) = none ∧ s' = { s with faulted := true }) ∨
      ∃ heap pc, RefCounting.step s.heap (s.pc t) = some (heap, pc) ∧
        s' = { s with heap, pc := update s.pc t pc, initial := (s.pc t).left s.initial } := by
  simp only [step] at hstep
  split at hstep
  case isTrue h =>
    cases hcode : RefCounting.step s.heap (s.pc t) with
    | none =>
      rw [hcode] at hstep
      cases hstep
      exact .inl ⟨rfl, rfl⟩
    | some next =>
      rw [hcode] at hstep
      cases hstep
      exact .inr ⟨next.1, next.2, rfl, rfl⟩
  case isFalse => cases hstep

end Threads

end CppServer.RefCounting
