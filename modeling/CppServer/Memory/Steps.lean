import CppServer.CoreMacro
import CppServer.Memory.Tables

namespace CppServer.Memory

/-- `size + sizeof(MemoryHeader)`: the sum is taken in `size_t` and cut back to
`int32`. -/
def allocSizeOf (size : BitVec 32) : BitVec 32 :=
  (size.signExtend 64 + BitVec.ofNat 64 sizeofMemoryHeader).setWidth 32

def attachHeader (header : ℕ) : ℕ := header + sizeofMemoryHeader

def detachHeader (ptr : ℕ) : ℕ := ptr - sizeofMemoryHeader

/-- A block: how many bytes were asked for it, the pool that asked (`none` for
`Allocate` itself), and the `allocSize` in the header at its start. The code
keeps the last one only. -/
structure Block where
  capacity : ℕ
  creator : Option ℕ
  allocSize : BitVec 32
deriving DecidableEq, Repr

/-- What the threads share: the blocks that the system has handed out, what is at
each address, and the members `_header`, `_useCount` and `_reserveCount` of each
pool. -/
structure Heap where
  allocated : List ℕ := []
  block : ℕ → Block := fun _ => ⟨0, none, 0⟩
  header : ℕ → List ℕ := fun _ => []
  useCount : ℕ → BitVec 32 := fun _ => 0
  reserveCount : ℕ → BitVec 32 := fun _ => 0

namespace Heap

/-- The system hands out the block at `base`, or none if `base` is null. -/
def malloc (h : Heap) (base : ℕ) (capacity : ℕ) (creator : Option ℕ) : Heap :=
  if base = 0 then h
  else { h with
    allocated := base :: h.allocated
    block := Function.update h.block base ⟨capacity, creator, (h.block base).allocSize⟩ }

def free (h : Heap) (header : ℕ) : Heap := { h with allocated := h.allocated.erase header }

def setAllocSize (h : Heap) (header : ℕ) (allocSize : BitVec 32) : Heap :=
  { h with block := Function.update h.block header { h.block header with allocSize } }

def setHeader (h : Heap) (p : ℕ) (header : List ℕ) : Heap :=
  { h with header := Function.update h.header p header }

def addUse (h : Heap) (p : ℕ) (n : BitVec 32) : Heap :=
  { h with useCount := Function.update h.useCount p (h.useCount p + n) }

def addReserve (h : Heap) (p : ℕ) (n : BitVec 32) : Heap :=
  { h with reserveCount := Function.update h.reserveCount p (h.reserveCount p + n) }

end Heap

/-- How a call can fail: an assertion, an index outside `_poolTable`, or a header
written through a null pointer. -/
inductive Fault
  | crash (cause : Cause)
  | outOfTable
  | nullWrite
deriving DecidableEq, Repr

inductive Route
  | system
  | pool (p : ℕ)
deriving DecidableEq, Repr

/-- The branch on `allocSize` that `Allocate` and `Release` share. -/
def route (allocSize : BitVec 32) : Except Fault Route :=
  if (maxAllocSize : ℤ) < allocSize.toInt then .ok .system
  else
    match poolOf allocSize.toInt with
    | some p => .ok (.pool p)
    | none => .error .outOfTable

/-- Where a thread is in the code: `allocate` and `release` stand at the beginning
of the two functions, the others before the access they are named after. -/
inductive Pc
  | idle
  | allocate (size : BitVec 32)
  | systemMalloc (size : BitVec 32)
  | popList (size : BitVec 32) (p : ℕ)
  | popMalloc (size : BitVec 32) (p : ℕ)
  | popCheck (size : BitVec 32) (p : ℕ) (memory : ℕ)
  | popReserve (size : BitVec 32) (p : ℕ) (memory : ℕ)
  | popUse (size : BitVec 32) (p : ℕ) (memory : ℕ)
  | attach (size : BitVec 32) (header : ℕ)
  | release (ptr : ℕ)
  | pushClear (p : ℕ) (header : ℕ)
  | pushList (p : ℕ) (header : ℕ)
  | pushUse (p : ℕ)
  | pushReserve (p : ℕ)
  | systemFree (header : ℕ)
deriving DecidableEq, Repr

/-- One step inside `Allocate` or `Release`; `base` is what `_aligned_malloc`
returns in a step that calls it. -/
def step (base : ℕ) (h : Heap) : Pc → Except Fault (Heap × Pc)
  | .idle => .ok (h, .idle)
  | .allocate size =>
    match route (allocSizeOf size) with
    | .ok .system => .ok (h, .systemMalloc size)
    | .ok (.pool p) => .ok (h, .popList size p)
    | .error fault => .error fault
  | .systemMalloc size => .ok (h.malloc base (allocSizeOf size).toNat none, .attach size base)
  | .popList size p =>
    match h.header p with
    | [] => .ok (h, .popMalloc size p)
    | memory :: rest => .ok (h.setHeader p rest, .popCheck size p memory)
  | .popMalloc size p => .ok (h.malloc base (poolSize p) (some p), .popUse size p base)
  | .popCheck size p memory =>
    if (h.block memory).allocSize = 0 then .ok (h, .popReserve size p memory)
    else .error (.crash .assertCrash)
  | .popReserve size p memory => .ok (h.addReserve p (-1), .popUse size p memory)
  | .popUse size p memory => .ok (h.addUse p 1, .attach size memory)
  | .attach size header =>
    if header = 0 then .error .nullWrite
    else .ok (h.setAllocSize header (allocSizeOf size), .idle)
  | .release ptr =>
    if 0 < (h.block (detachHeader ptr)).allocSize.toInt then
      match route (h.block (detachHeader ptr)).allocSize with
      | .ok .system => .ok (h, .systemFree (detachHeader ptr))
      | .ok (.pool p) => .ok (h, .pushClear p (detachHeader ptr))
      | .error fault => .error fault
    else .error (.crash .assertCrash)
  | .pushClear p header => .ok (h.setAllocSize header 0, .pushList p header)
  | .pushList p header => .ok (h.setHeader p (header :: h.header p), .pushUse p)
  | .pushUse p => .ok (h.addUse p (-1), .pushReserve p)
  | .pushReserve p => .ok (h.addReserve p 1, .idle)
  | .systemFree header => .ok (h.free header, .idle)

theorem Heap.capacity_setAllocSize (h : Heap) (header : ℕ) (allocSize : BitVec 32) (a : ℕ) :
    ((h.setAllocSize header allocSize).block a).capacity = (h.block a).capacity := by
  by_cases ha : a = header
  · rw [ha]
    simp [setAllocSize]
  · simp [setAllocSize, ha]

theorem Heap.creator_setAllocSize (h : Heap) (header : ℕ) (allocSize : BitVec 32) (a : ℕ) :
    ((h.setAllocSize header allocSize).block a).creator = (h.block a).creator := by
  by_cases ha : a = header
  · rw [ha]
    simp [setAllocSize]
  · simp [setAllocSize, ha]

theorem Heap.block_malloc_of_ne (h : Heap) {base a : ℕ} (hne : a ≠ base) (capacity : ℕ)
    (creator : Option ℕ) : (h.malloc base capacity creator).block a = h.block a := by
  unfold malloc
  split
  · rfl
  · exact Function.update_of_ne hne _ _

theorem Heap.counts_malloc (h : Heap) (base capacity : ℕ) (creator : Option ℕ) :
    (h.malloc base capacity creator).useCount = h.useCount ∧
      (h.malloc base capacity creator).reserveCount = h.reserveCount ∧
      (h.malloc base capacity creator).header = h.header := by
  unfold malloc
  split
  · exact ⟨rfl, rfl, rfl⟩
  · exact ⟨rfl, rfl, rfl⟩

theorem detachHeader_attachHeader (header : ℕ) : detachHeader (attachHeader header) = header :=
  Nat.add_sub_cancel header sizeofMemoryHeader

/-- The two conversions cancel: the sum is that of `int32`. -/
theorem allocSizeOf_eq (size : BitVec 32) : allocSizeOf size = size + 32 := by
  have hcut : (size.signExtend 64).setWidth 32 = size := by
    ext i hi
    rw [BitVec.getElem_setWidth, BitVec.getLsbD_signExtend, if_pos hi, BitVec.getLsbD_eq_getElem hi]
    simp
    omega
  rw [allocSizeOf, BitVec.setWidth_add _ _ (by decide), hcut]
  rfl

theorem toNat_of_nonneg {x : BitVec 32} (hpos : 0 ≤ x.toInt) : (x.toNat : ℤ) = x.toInt := by
  have hbound := x.isLt
  have hcond := BitVec.toInt_eq_toNat_cond x
  split at hcond
  · exact hcond.symm
  · omega

theorem route_system {allocSize : BitVec 32} (hroute : route allocSize = .ok .system) :
    (maxAllocSize : ℤ) < allocSize.toInt := by
  unfold route at hroute
  split at hroute
  case isTrue h => exact h
  case isFalse =>
    split at hroute
    · cases hroute
    · cases hroute

theorem route_pool {allocSize : BitVec 32} {p : ℕ} (hroute : route allocSize = .ok (.pool p)) :
    allocSize.toInt ≤ maxAllocSize ∧ poolOf allocSize.toInt = some p := by
  unfold route at hroute
  split at hroute
  case isTrue => cases hroute
  case isFalse h =>
    split at hroute
    case h_1 p' hpool =>
      cases hroute
      exact ⟨Int.not_lt.mp h, hpool⟩
    case h_2 => cases hroute

theorem route_error {allocSize : BitVec 32} {fault : Fault} (hroute : route allocSize = .error fault) :
    fault = .outOfTable := by
  unfold route at hroute
  split at hroute
  case isTrue => cases hroute
  case isFalse =>
    split at hroute
    · cases hroute
    · cases hroute
      rfl

/-- A size that is not negative has a route. -/
theorem exists_route {allocSize : BitVec 32} (hpos : 0 ≤ allocSize.toInt) :
    ∃ r, route allocSize = .ok r := by
  unfold route
  by_cases hlarge : (maxAllocSize : ℤ) < allocSize.toInt
  · rw [if_pos hlarge]
    exact ⟨_, rfl⟩
  · obtain ⟨p, hpool⟩ := exists_poolOf hpos (Int.not_lt.mp hlarge)
    rw [if_neg hlarge, hpool]
    exact ⟨_, rfl⟩

end CppServer.Memory
