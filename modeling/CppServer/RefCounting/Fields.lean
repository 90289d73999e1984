import CppServer.Base.Outcome
import CppServer.RefCounting.Steps

namespace CppServer.RefCounting

open Function

/-- Where the `TSharedPtr`s of a program stand: the object that one is a field of, none for
a variable, and the fields of each object in the order of their declaration. -/
structure Layout (S O : Type) where
  owner : S → Option O
  fields : O → List S
  mem_fields : ∀ o s, s ∈ fields o ↔ owner s = some o

/-- An operation that accesses a member of a deleted object goes wrong; `fuel` ends a
deletion that is nested deeper than the fuel allows. -/
inductive Fault
  | deleted
  | fuel
deriving DecidableEq, Repr

variable {S O : Type}

/-- A field is there until its object has been deleted. -/
def Heap.Accessible (L : Layout S O) (h : Heap S O) (s : S) : Prop :=
  ∀ o ∈ L.owner s, h.deletes o = 0

/-- A variable is there in every heap. -/
theorem Heap.accessible_of_variable {L : Layout S O} {x : S} (hx : L.owner x = none)
    (h : Heap S O) : h.Accessible L x := by
  intro o ho
  rw [hx] at ho
  cases ho

instance (L : Layout S O) (h : Heap S O) (s : S) : Decidable (h.Accessible L s) :=
  inferInstanceAs (Decidable (∀ o ∈ L.owner s, h.deletes o = 0))

namespace Heap

def read (L : Layout S O) (h : Heap S O) (s : S) : Except Fault (Option O) :=
  if h.Accessible L s then .ok (h.ptr s) else .error .deleted

@[simp] theorem read_eq {L : Layout S O} {h : Heap S O} {s : S} (hs : h.Accessible L s) :
    h.read L s = .ok (h.ptr s) := if_pos hs

variable [DecidableEq S]

def write (L : Layout S O) (h : Heap S O) (s : S) (ptr : Option O) : Except Fault (Heap S O) :=
  if h.Accessible L s then .ok { h with ptr := update h.ptr s ptr } else .error .deleted

@[simp] theorem write_eq {L : Layout S O} {h : Heap S O} {s : S} (hs : h.Accessible L s)
    (ptr : Option O) : h.write L s ptr = .ok { h with ptr := update h.ptr s ptr } := if_pos hs

variable [DecidableEq O]

def addRef (h : Heap S O) (o : O) : Except Fault (Heap S O) :=
  if h.deletes o ≠ 0 then .error .deleted
  else .ok { h with refCount := update h.refCount o (h.refCount o + 1) }

/-- `Release`, with what `ReleaseRef` does. -/
def releaseBy (L : Layout S O) (releaseRef : Heap S O → O → Except Fault (Heap S O))
    (h : Heap S O) (x : S) : Except Fault (Heap S O) := do
  match ← h.read L x with
  | some o =>
    let h ← releaseRef h o
    h.write L x none
  | none => pure h

/-- `ReleaseRef`. `delete this` destroys the fields, the last one first, and gives back the
memory after that. -/
def releaseRef (L : Layout S O) : ℕ → Heap S O → O → Except Fault (Heap S O)
  | 0, _, _ => .error .fuel
  | fuel + 1, h, o =>
    if h.deletes o ≠ 0 then .error .deleted
    else
      let h := { h with refCount := update h.refCount o (h.refCount o - 1) }
      if h.refCount o = 0 then do
        let h ← (L.fields o).reverse.foldlM (releaseBy L (releaseRef L fuel)) h
        pure { h with deletes := update h.deletes o (h.deletes o + 1) }
      else pure h

def release (L : Layout S O) (fuel : ℕ) : Heap S O → S → Except Fault (Heap S O) :=
  releaseBy L (releaseRef L fuel)

def set (L : Layout S O) (h : Heap S O) (x rhs : S) : Except Fault (Heap S O) := do
  let ptr ← h.read L rhs
  let h ← h.write L x ptr
  match ptr with
  | some o => h.addRef o
  | none => pure h

def copyAssign (L : Layout S O) (fuel : ℕ) (h : Heap S O) (x rhs : S) :
    Except Fault (Heap S O) := do
  if (← h.read L x) ≠ (← h.read L rhs) then
    let h ← h.release L fuel x
    h.set L x rhs
  else pure h

def moveAssign (L : Layout S O) (fuel : ℕ) (h : Heap S O) (x rhs : S) :
    Except Fault (Heap S O) := do
  let h ← h.release L fuel x
  let h ← h.write L x (← h.read L rhs)
  h.write L rhs none

/-- The assignment has gone through, `x` has the pointer that `rhs` had before, and its
object has not been deleted. -/
def Assigned (h : Heap S O) (x rhs : S) (result : Except Fault (Heap S O)) : Prop :=
  ∃ h', result = .ok h' ∧ h'.ptr x = h.ptr rhs ∧ ∀ o ∈ h.ptr rhs, h'.deletes o = 0

/-- A `TSharedPtr` that is there points to an object. -/
def Points (L : Layout S O) (h : Heap S O) (s : S) (o : O) : Prop :=
  h.Accessible L s ∧ h.ptr s = some o

instance (L : Layout S O) (h : Heap S O) (s : S) (o : O) : Decidable (h.Points L s o) :=
  inferInstanceAs (Decidable (_ ∧ _))

/-- A heap between two operations: every `TSharedPtr` that is there points to an object
that has not been deleted, whose `_refCount` is the number of these pointers and of the raw
references, the creator's among them. -/
structure Sound [Fintype S] (L : Layout S O) (raw : O → ℕ) (h : Heap S O) : Prop where
  live : ∀ s o, h.Points L s o → h.deletes o = 0
  counts : ∀ o, h.deletes o = 0 →
    (h.refCount o).toNat = (Finset.univ.filter fun s => h.Points L s o).card + raw o

/-- The object is kept alive only through the variable `p`: it is pointed to, and each
reference to it is `p` or a field of an object that is kept alive only through `p`. -/
inductive OnlyThrough (L : Layout S O) (raw : O → ℕ) (h : Heap S O) (p : S) : O → Prop
  | intro (o : O) (hraw : raw o = 0) (hheld : ∃ s, h.Points L s o)
      (howned : ∀ s, h.Points L s o → s ≠ p → ∃ c, L.owner s = some c)
      (honly : ∀ s c, h.Points L s o → s ≠ p → L.owner s = some c → OnlyThrough L raw h p c) :
      OnlyThrough L raw h p o

end Heap

end CppServer.RefCounting
