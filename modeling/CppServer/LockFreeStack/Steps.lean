import Mathlib

namespace CppServer.LockFreeStack

abbrev Addr := BitVec 64

/-- The two 8-byte halves of a header, as their bit-fields. -/
structure Alignment where
  depth : BitVec 16 := 0
  sequence : BitVec 48 := 0
deriving DecidableEq, Repr

structure Region where
  reserved : BitVec 4 := 0
  next : BitVec 60 := 0
deriving DecidableEq, Repr

structure SListHeader where
  alignment : Alignment := {}
  region : Region := {}
deriving DecidableEq, Repr

/-- The bit-field of an entry, `(uint64)entry >> 4`. -/
def nextOf (entry : Addr) : BitVec 60 := (entry >>> 4).setWidth 60

/-- The entry of a bit-field, `(SListEntry*)((uint64)next << 4)`. -/
def entryOf (next : BitVec 60) : Addr := next.setWidth 64 <<< 4

def Aligned (entry : Addr) : Prop := entry.toNat % 16 = 0

instance (entry : Addr) : Decidable (Aligned entry) := inferInstanceAs (Decidable (_ = _))

theorem entryOf_toNat (next : BitVec 60) : (entryOf next).toNat = next.toNat * 16 := by
  have hbound := next.isLt
  simp only [entryOf, BitVec.toNat_shiftLeft, BitVec.toNat_setWidth, Nat.shiftLeft_eq]
  omega

theorem nextOf_toNat (entry : Addr) : (nextOf entry).toNat = entry.toNat / 16 := by
  have hbound := entry.isLt
  simp only [nextOf, BitVec.toNat_setWidth, BitVec.toNat_ushiftRight, Nat.shiftRight_eq_div_pow]
  omega

theorem aligned_entryOf (next : BitVec 60) : Aligned (entryOf next) := by
  unfold Aligned
  rw [entryOf_toNat]
  omega

/-- An aligned entry fits its bit-field. -/
theorem entryOf_nextOf {entry : Addr} (haligned : Aligned entry) : entryOf (nextOf entry) = entry := by
  unfold Aligned at haligned
  apply BitVec.eq_of_toNat_eq
  rw [entryOf_toNat, nextOf_toNat]
  omega

/-- What the threads share: a header and the `next` of every entry. -/
structure Memory where
  header : SListHeader
  next : Addr → Addr

def initializeHead (m : Memory) : Memory := { m with header := {} }

inductive Op
  | push (entry : Addr)
  | pop
deriving DecidableEq, Repr

/-- What a call returns; a null entry is `none`. -/
inductive Result
  | pushed
  | popped (entry : Option Addr)
deriving DecidableEq, Repr

inductive Half
  | alignment
  | region
deriving DecidableEq, Repr

/-- Where a thread is in the code. A copy of the header is read in two halves,
in either order. `done` stands before the return. -/
inductive Pc
  | idle
  | pushRead (entry : Addr) (alignment : Option Alignment) (region : Option Region)
  | pushLink (entry : Addr) (expected : SListHeader)
  | pushExchange (entry : Addr) (expected : SListHeader)
  | popRead (alignment : Option Alignment) (region : Option Region)
  | popNext (expected : SListHeader)
  | popExchange (expected : SListHeader) (next : Addr)
  | done (result : Result)
deriving DecidableEq, Repr

def Op.entryPoint : Op → Pc
  | .push entry => .pushRead entry none none
  | .pop => .popRead none none

/-- Read one half of the header that has not been read yet. -/
def readHalf (header : SListHeader) :
    Half → Option Alignment → Option Region → Option (Option Alignment × Option Region)
  | .alignment, none, region => some (some header.alignment, region)
  | .region, alignment, none => some (alignment, some header.region)
  | .alignment, some _, _ => none
  | .region, _, some _ => none

def desiredPush (entry : Addr) (expected : SListHeader) : SListHeader where
  alignment := ⟨expected.alignment.depth + 1, expected.alignment.sequence + 1⟩
  region := { next := nextOf entry }

def desiredPop (next : Addr) (expected : SListHeader) : SListHeader where
  alignment := ⟨expected.alignment.depth - 1, expected.alignment.sequence + 1⟩
  region := { next := nextOf next }

/-- One step inside `PushEntrySList` or `PopEntrySList`; `half` is the half that
a step reads which reads one. A failed exchange reads the header anew. -/
def step (half : Half) (m : Memory) : Pc → Option (Memory × Pc)
  | .idle => none
  | .pushRead entry alignment region =>
    match readHalf m.header half alignment region with
    | some (some alignment, some region) => some (m, .pushLink entry ⟨alignment, region⟩)
    | some (alignment, region) => some (m, .pushRead entry alignment region)
    | none => none
  | .pushLink entry expected =>
    some ({ m with next := Function.update m.next entry (entryOf expected.region.next) },
      .pushExchange entry expected)
  | .pushExchange entry expected =>
    if m.header = expected then
      some ({ m with header := desiredPush entry expected }, .done .pushed)
    else some (m, .pushRead entry none none)
  | .popRead alignment region =>
    match readHalf m.header half alignment region with
    | some (some alignment, some region) =>
      if entryOf region.next = 0 then some (m, .done (.popped none))
      else some (m, .popNext ⟨alignment, region⟩)
    | some (alignment, region) => some (m, .popRead alignment region)
    | none => none
  | .popNext expected => some (m, .popExchange expected (m.next (entryOf expected.region.next)))
  | .popExchange expected next =>
    if m.header = expected then
      some ({ m with header := desiredPop next expected },
        .done (.popped (some (entryOf expected.region.next))))
    else some (m, .popRead none none)
  | .done _ => some (m, .idle)

end CppServer.LockFreeStack
