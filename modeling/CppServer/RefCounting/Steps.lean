import Mathlib

namespace CppServer.RefCounting

/-- The `_ptr` of every variable, the `_refCount` of every object, and how often
`delete this` has run on it. -/
structure Heap (V O : Type) where
  ptr : V → Option O
  refCount : O → BitVec 32
  deletes : O → ℕ

/-- What follows a variable's `Release`: the rest of an assignment, or nothing. -/
inductive Next (V : Type)
  | copy (rhs : V)
  | move (rhs : V)
  | destroy
deriving DecidableEq

/-- Where a thread is in the code. In `ReleaseRef` a thread comes from a variable's
`Release`, or from the creator of the object. -/
inductive Pc (V O : Type)
  | idle
  | compare (x rhs : V)
  | release (x : V) (next : Next V)
  | releaseRef (o : O) (caller : Option (V × Next V))
  | deleteThis (o : O) (caller : Option (V × Next V))
  | clear (x : V) (next : Next V)
  | set (x rhs : V)
  | setRaw (x : V) (ptr : Option O)
  | addRef (x : V) (o : O) (rhs : Option V)
  | take (x rhs : V)
  | drop (x rhs : V)
deriving DecidableEq

/-- An operation: the constructors, the assignments and the destructor of
`TSharedPtr`, and the creator's `ReleaseRef`. -/
inductive Op (V O : Type)
  | construct (x : V) (ptr : Option O)
  | copyConstruct (x rhs : V)
  | moveConstruct (x rhs : V)
  | copyAssign (x rhs : V)
  | moveAssign (x rhs : V)
  | destroy (x : V)
  | releaseRef (o : O)
deriving DecidableEq

variable {V O : Type}

def Op.entry : Op V O → Pc V O
  | .construct x ptr => .setRaw x ptr
  | .copyConstruct x rhs => .set x rhs
  | .moveConstruct x rhs => .take x rhs
  | .copyAssign x rhs => .compare x rhs
  | .moveAssign x rhs => .release x (.move rhs)
  | .destroy x => .release x .destroy
  | .releaseRef o => .releaseRef o none

/-- Where a thread is after the variable's `Release`. -/
def Next.pc (x : V) : Next V → Pc V O
  | .copy rhs => .set x rhs
  | .move rhs => .take x rhs
  | .destroy => .idle

/-- Where a thread is after `ReleaseRef`. -/
def returned : Option (V × Next V) → Pc V O
  | some (x, next) => .clear x next
  | none => .idle

variable [DecidableEq V] [DecidableEq O]

/-- One step of an operation; `none` is an access to the count of an object that
has been deleted. -/
def step (h : Heap V O) : Pc V O → Option (Heap V O × Pc V O)
  | .idle => some (h, .idle)
  | .compare x rhs =>
    if h.ptr x ≠ h.ptr rhs then some (h, .release x (.copy rhs)) else some (h, .idle)
  | .release x next =>
    match h.ptr x with
    | some o => some (h, .releaseRef o (some (x, next)))
    | none => some (h, next.pc x)
  | .releaseRef o caller =>
    if h.deletes o ≠ 0 then none
    else
      some ({ h with refCount := Function.update h.refCount o (h.refCount o - 1) },
        if h.refCount o - 1 = 0 then .deleteThis o caller else returned caller)
  | .deleteThis o caller =>
    some ({ h with deletes := Function.update h.deletes o (h.deletes o + 1) }, returned caller)
  | .clear x next => some ({ h with ptr := Function.update h.ptr x none }, next.pc x)
  | .set x rhs =>
    some ({ h with ptr := Function.update h.ptr x (h.ptr rhs) },
      match h.ptr rhs with
      | some o => .addRef x o (some rhs)
      | none => .idle)
  | .setRaw x ptr =>
    some ({ h with ptr := Function.update h.ptr x ptr },
      match ptr with
      | some o => .addRef x o none
      | none => .idle)
  | .addRef _ o _ =>
    if h.deletes o ≠ 0 then none
    else some ({ h with refCount := Function.update h.refCount o (h.refCount o + 1) }, .idle)
  | .take x rhs => some ({ h with ptr := Function.update h.ptr x (h.ptr rhs) }, .drop x rhs)
  | .drop _ rhs => some ({ h with ptr := Function.update h.ptr rhs none }, .idle)

end CppServer.RefCounting
