import CppServer.Base.Outcome
import CppServer.Memory.Ownership

namespace CppServer.Memory

open Base

/-- `PoolAllocator::Alloc` passes its argument on to `Allocate`. -/
def PoolAllocator.alloc (size : BitVec 32) : Pc := .allocate size

/-- `StlAllocator<T>::allocate(count)` with `sizeof(T) = size`. -/
def StlAllocator.allocate (count size : BitVec 64) : Pc :=
  PoolAllocator.alloc ((count * size).setWidth 32)

/-- One call among others: the heap, where the call is, the pointer that it has
returned, and how it has failed. -/
structure Call where
  heap : Heap
  pc : Pc
  returned : Option ℕ := none
  failed : Option Fault := none

/-- A label: the call's next step, or what the rest of the program does to the heap
before it. -/
inductive CallAct
  | run (base : ℕ)
  | others (heap : Heap)

def Pc.pointer : Pc → Option ℕ
  | .attach _ header => some (attachHeader header)
  | _ => none

namespace Call

def step (c : Call) : CallAct → Option Call
  | .run base =>
    if c.failed = none ∧ c.pc ≠ .idle then
      match Memory.step base c.heap c.pc with
      | .ok (heap, pc) => some { c with heap, pc, returned := c.pc.pointer }
      | .error fault => some { c with failed := some fault }
    else none
  | .others heap => if c.failed = none ∧ c.pc ≠ .idle then some { c with heap } else none

def machine (heap : Heap) (pc : Pc) : Machine Call CallAct where
  start := { heap, pc }
  step := step

end Call

/-- Every block on a pool's list is as large as the pool's blocks are. -/
def Heap.Stocked (h : Heap) : Prop := ∀ p, ∀ a ∈ h.header p, (h.block a).capacity = poolSize p

/-- `_aligned_malloc` returns null or a fresh block, and the rest of the program
leaves the lists stocked and the block in the call's hands as it is. -/
def Fair (c : Call) : CallAct → Call → Prop
  | .run base, _ => ∀ n, c.pc.request = some n → base = 0 ∨ Fresh c.heap base n
  | .others heap, _ => heap.Stocked ∧
      ∀ header, c.pc.block = some header → heap.block header = c.heap.block header

/-- The call reads `_poolTable` inside its bounds, and if it returns, then a block
with room for all the elements. -/
def Serves (count size : BitVec 64) : Prop :=
  ∀ heap : Heap, heap.Stocked → ∀ as c,
    (Call.machine heap (StlAllocator.allocate count size)).Run Fair as c →
      c.failed ≠ some .outOfTable ∧ ∀ ptr, c.returned = some ptr →
        ptr + count.toNat * size.toNat ≤
          detachHeader ptr + (c.heap.block (detachHeader ptr)).capacity

/-- What a place in the code says, when the call's size leaves room for the header:
the block is null or large enough. -/
def Pc.Serving (h : Heap) (size : BitVec 32) : Pc → Prop
  | .idle => True
  | .allocate size' => size' = size ∧ h.Stocked
  | .systemMalloc size' => size' = size
  | .popList size' p => size' = size ∧ route (allocSizeOf size) = .ok (.pool p) ∧ h.Stocked
  | .popMalloc size' p => size' = size ∧ route (allocSizeOf size) = .ok (.pool p)
  | .popCheck _ _ header | .popReserve _ _ header | .popUse _ _ header | .attach _ header =>
    header = 0 ∨ sizeofMemoryHeader + size.toNat ≤ (h.block header).capacity
  | .release _ | .pushClear _ _ | .pushList _ _ | .pushUse _ | .pushReserve _ | .systemFree _ => False

theorem Heap.capacity_malloc (h : Heap) (base capacity : ℕ) (creator : Option ℕ) :
    base = 0 ∨ ((h.malloc base capacity creator).block base).capacity = capacity := by
  by_cases hnull : base = 0
  · exact .inl hnull
  · right
    simp [malloc, hnull]

/-- The step lemma of a call. -/
theorem Pc.Serving.step {h : Heap} {size : BitVec 32} {pc : Pc} (base : ℕ)
    (hserving : pc.Serving h size) (hsize : Requestable size) :
    Ends (fun next => next.2.Serving next.1 size ∧ ∀ ptr, pc.pointer = some ptr → next.2 = .idle ∧
        ptr + size.toNat ≤ detachHeader ptr + (next.1.block (detachHeader ptr)).capacity)
      (· ≠ .outOfTable) (Memory.step base h pc) := by
  cases pc with
  | idle => exact ⟨trivial, nofun⟩
  | allocate size' =>
    obtain ⟨rfl, hstocked⟩ := hserving
    obtain ⟨r, hroute⟩ := hsize.exists_route
    simp only [Memory.step, hroute]
    cases r with
    | system => exact ⟨rfl, nofun⟩
    | pool p => exact ⟨⟨rfl, hroute, hstocked⟩, nofun⟩
  | systemMalloc size' =>
    obtain rfl := hserving
    refine ⟨?_, nofun⟩
    apply (h.capacity_malloc base _ none).imp_right
    intro hcapacity
    rw [hcapacity, hsize.room_system]
  | popList size' p =>
    obtain ⟨rfl, hroute, hstocked⟩ := hserving
    simp only [Memory.step]
    split
    case h_1 => exact ⟨⟨rfl, hroute⟩, nofun⟩
    case h_2 memory rest hlist =>
      refine ⟨.inr ?_, nofun⟩
      have hcapacity := hstocked p memory (hlist ▸ List.mem_cons_self)
      exact (hsize.room_pool hroute).trans_eq hcapacity.symm
  | popMalloc size' p =>
    obtain ⟨rfl, hroute⟩ := hserving
    refine ⟨?_, nofun⟩
    apply (h.capacity_malloc base _ (some p)).imp_right
    intro hcapacity
    rw [hcapacity]
    exact hsize.room_pool hroute
  | popCheck size' p header =>
    simp only [Memory.step]
    split
    case isTrue => exact ⟨hserving, nofun⟩
    case isFalse => exact nofun
  | popReserve size' p header => exact ⟨hserving, nofun⟩
  | popUse size' p header => exact ⟨hserving, nofun⟩
  | attach size' header =>
    simp only [Memory.step]
    split
    case isTrue => exact nofun
    case isFalse hnull =>
      refine ⟨trivial, fun ptr hptr => ⟨rfl, ?_⟩⟩
      obtain rfl := Option.some.inj hptr
      have hroom := hserving.resolve_left hnull
      rw [detachHeader_attachHeader, h.capacity_setAllocSize, attachHeader]
      omega
  | _ => exact hserving.elim

theorem Pc.Serving.others {h h' : Heap} {size : BitVec 32} {pc : Pc} (hserving : pc.Serving h size)
    (hstocked : h'.Stocked) (hblock : ∀ header, pc.block = some header → h'.block header = h.block header) :
    pc.Serving h' size := by
  cases pc with
  | allocate size' => exact ⟨hserving.1, hstocked⟩
  | popList size' p => exact ⟨hserving.1, hserving.2.1, hstocked⟩
  | popCheck size' p header | popReserve size' p header | popUse size' p header
  | attach size' header =>
    simp only [Pc.Serving]
    rw [hblock header rfl]
    exact hserving
  | _ => exact hserving

/-- What a call keeps. -/
structure Call.Good (size : BitVec 32) (c : Call) : Prop where
  place : c.pc.Serving c.heap size
  inside : c.failed ≠ some .outOfTable
  served : ∀ ptr, c.returned = some ptr → c.pc = .idle ∧
    ptr + size.toNat ≤ detachHeader ptr + (c.heap.block (detachHeader ptr)).capacity

theorem Call.Good.step {size : BitVec 32} {c c' : Call} {a : CallAct} (hgood : c.Good size)
    (hsize : Requestable size) (hfair : Fair c a c') (hstep : c.step a = some c') :
    c'.Good size := by
  obtain ⟨hplace, hinside, hserved⟩ := hgood
  cases a with
  | run base =>
    simp only [Call.step] at hstep
    split at hstep
    case isFalse => cases hstep
    case isTrue hbusy =>
      have hends := hplace.step base hsize
      cases hcode : Memory.step base c.heap c.pc with
      | ok next =>
        rw [hcode] at hstep hends
        cases hstep
        exact ⟨hends.1, hinside, hends.2⟩
      | error fault =>
        rw [hcode] at hstep hends
        cases hstep
        exact ⟨hplace, fun h => hends (Option.some.inj h), hserved⟩
  | others heap =>
    simp only [Call.step] at hstep
    split at hstep
    case isFalse => cases hstep
    case isTrue hbusy =>
      cases hstep
      refine ⟨hplace.others hfair.1 hfair.2, hinside, fun ptr hptr => ?_⟩
      exact absurd (hserved ptr hptr).1 hbusy.2

/-- A request that leaves room for the header is served. -/
theorem Requestable.good {size : BitVec 32} (hsize : Requestable size) {heap : Heap}
    (hstocked : heap.Stocked) {as : List CallAct} {c : Call}
    (hrun : (Call.machine heap (.allocate size)).Run Fair as c) : c.Good size := by
  apply hrun.invariant (P := Call.Good size)
  · exact ⟨⟨rfl, hstocked⟩, nofun, nofun⟩
  · exact fun c a c' hgood hfair hstep => hgood.step hsize hfair hstep

theorem serves_of_le {count size : BitVec 64}
    (hle : count.toNat * size.toNat + sizeofMemoryHeader ≤ 2 ^ 31 - 1) : Serves count size := by
  have hnat : ((count * size).setWidth 32).toNat = count.toNat * size.toNat := by
    simp only [sizeofMemoryHeader] at hle
    rw [BitVec.toNat_setWidth, BitVec.toNat_mul, Nat.mod_eq_of_lt, Nat.mod_eq_of_lt]
    · omega
    · rw [Nat.mod_eq_of_lt]
      · omega
      · omega
  have hsize : Requestable ((count * size).setWidth 32) := by
    simp only [sizeofMemoryHeader] at hle
    unfold Requestable
    rw [BitVec.toInt_eq_toNat_of_lt (by omega), hnat, sizeofMemoryHeader]
    omega
  intro heap hstocked as c hrun
  have hgood := hsize.good hstocked hrun
  refine ⟨hgood.inside, fun ptr hptr => ?_⟩
  rw [← hnat]
  exact (hgood.served ptr hptr).2

/-- The call's own next step. -/
theorem Call.run_snoc {heap₀ : Heap} {pc₀ : Pc} {as : List CallAct} {c : Call} (base : ℕ)
    (heap : Heap) (pc : Pc) (hrun : (Call.machine heap₀ pc₀).Run Fair as c)
    (hsafe : c.failed = none) (hbusy : c.pc ≠ .idle)
    (hfair : ∀ n, c.pc.request = some n → base = 0 ∨ Fresh c.heap base n)
    (hcode : Memory.step base c.heap c.pc = .ok (heap, pc)) :
    (Call.machine heap₀ pc₀).Run Fair (as ++ [.run base])
      { c with heap, pc, returned := c.pc.pointer } := by
  refine hrun.snoc (a := .run base) ?_ ?_
  · exact hfair
  · simp only [Call.machine, Call.step]
    rw [if_pos ⟨hsafe, hbusy⟩, hcode]

theorem fresh_empty (n : ℕ) : Fresh {} 16 n :=
  ⟨by decide, by decide, fun _ ha => absurd ha List.not_mem_nil⟩

/-- From an empty heap, a call that goes to the system returns a block of just the
`int32` size. -/
theorem run_system {size : BitVec 32} (hroute : route (allocSizeOf size) = .ok .system) :
    ∃ as c, (Call.machine {} (.allocate size)).Run Fair as c ∧
      c.returned = some 48 ∧ (c.heap.block 16).capacity = (allocSizeOf size).toNat := by
  have hstart : (Call.machine {} (.allocate size)).Run Fair [] { heap := {}, pc := .allocate size } :=
    .start
  have hrouted := Call.run_snoc 0 {} (.systemMalloc size) hstart rfl nofun nofun
    (by simp only [Memory.step, hroute])
  have hmalloced := Call.run_snoc 16 (Heap.malloc {} 16 (allocSizeOf size).toNat none)
    (.attach size 16) hrouted rfl nofun (fun n _ => .inr (fresh_empty n)) rfl
  have hattached := Call.run_snoc 0
    ((Heap.malloc {} 16 (allocSizeOf size).toNat none).setAllocSize 16 (allocSizeOf size)) .idle
    hmalloced rfl nofun nofun rfl
  refine ⟨_, _, hattached, rfl, ?_⟩
  rw [Heap.capacity_setAllocSize]
  exact (Heap.capacity_malloc {} 16 _ none).resolve_left (by decide)

/-- From an empty heap, a call that goes to a pool returns one of the pool's blocks. -/
theorem run_pool {size : BitVec 32} {p : ℕ} (hroute : route (allocSizeOf size) = .ok (.pool p)) :
    ∃ as c, (Call.machine {} (.allocate size)).Run Fair as c ∧
      c.returned = some 48 ∧ (c.heap.block 16).capacity = poolSize p := by
  have hstart : (Call.machine {} (.allocate size)).Run Fair [] { heap := {}, pc := .allocate size } :=
    .start
  have hrouted := Call.run_snoc 0 {} (.popList size p) hstart rfl nofun nofun
    (by simp only [Memory.step, hroute])
  have hpopped := Call.run_snoc 0 {} (.popMalloc size p) hrouted rfl nofun nofun rfl
  have hmalloced := Call.run_snoc 16 (Heap.malloc {} 16 (poolSize p) (some p))
    (.popUse size p 16) hpopped rfl nofun (fun n _ => .inr (fresh_empty n)) rfl
  have hused := Call.run_snoc 0 ((Heap.malloc {} 16 (poolSize p) (some p)).addUse p 1)
    (.attach size 16) hmalloced rfl nofun nofun rfl
  have hattached := Call.run_snoc 0 (((Heap.malloc {} 16 (poolSize p) (some p)).addUse p 1).setAllocSize
    16 (allocSizeOf size)) .idle hused rfl nofun nofun rfl
  refine ⟨_, _, hattached, rfl, ?_⟩
  rw [Heap.capacity_setAllocSize]
  exact (Heap.capacity_malloc {} 16 _ (some p)).resolve_left (by decide)

/-- A size without a route ends the call outside the table. -/
theorem run_outside {size : BitVec 32} {fault : Fault}
    (hroute : route (allocSizeOf size) = .error fault) :
    ∃ as c, (Call.machine {} (.allocate size)).Run Fair as c ∧ c.failed = some .outOfTable := by
  obtain rfl := route_error hroute
  have hstart : (Call.machine {} (.allocate size)).Run Fair [] { heap := {}, pc := .allocate size } :=
    .start
  refine ⟨[.run 0], { heap := {}, pc := .allocate size, failed := some .outOfTable }, ?_, rfl⟩
  refine hstart.snoc (a := .run 0) ?_ ?_
  · exact fun n hn => nomatch hn
  · simp [Call.machine, Call.step, Memory.step, hroute]

/-- A larger request is refused by nothing. From an empty heap the call ends
outside the table, or in a block of the `int32` size or within the limit. -/
theorem not_serves_of_lt {count size : BitVec 64}
    (hlt : 2 ^ 31 - 1 < count.toNat * size.toNat + sizeofMemoryHeader) : ¬Serves count size := by
  intro hserves
  have hempty : Heap.Stocked {} := fun p a ha => absurd ha List.not_mem_nil
  cases hroute : route (allocSizeOf ((count * size).setWidth 32)) with
  | error fault =>
    obtain ⟨as, c, hrun, hfailed⟩ := run_outside hroute
    exact (hserves {} hempty as c hrun).1 hfailed
  | ok r =>
    cases r with
    | system =>
      obtain ⟨as, c, hrun, hreturned, hcapacity⟩ := run_system hroute
      have hroom := (hserves {} hempty as c hrun).2 48 hreturned
      have hlarge := route_system hroute
      have hnat := toNat_of_nonneg (x := allocSizeOf ((count * size).setWidth 32)) (by omega)
      have hint := BitVec.toInt_lt (x := allocSizeOf ((count * size).setWidth 32))
      have hheader : detachHeader 48 = 16 := rfl
      rw [hheader, hcapacity] at hroom
      simp only [sizeofMemoryHeader] at hlt
      omega
    | pool p =>
      obtain ⟨as, c, hrun, hreturned, hcapacity⟩ := run_pool hroute
      have hroom := (hserves {} hempty as c hrun).2 48 hreturned
      have hpool := (poolOf_spec (route_pool hroute).2).2.2.2
      have hheader : detachHeader 48 = 16 := rfl
      rw [hheader, hcapacity] at hroom
      simp only [sizeofMemoryHeader, maxAllocSize] at hlt hpool
      omega

/-- Containers get what they asked for exactly if the block with its header has a
size that an `int32` holds. -/
theorem serves_iff (count size : BitVec 64) :
    Serves count size ↔ count.toNat * size.toNat + sizeofMemoryHeader ≤ 2 ^ 31 - 1 := by
  constructor
  · intro hserves
    by_contra hlt
    exact not_serves_of_lt (Nat.lt_of_not_le hlt) hserves
  · exact serves_of_le

/-- 2^30 elements of 4 bytes: the product is 0 as an `int32`, and the container gets
a block of the first pool. -/
theorem not_serves_wrapped : ¬Serves (BitVec.ofNat 64 (2 ^ 30)) 4 :=
  not_serves_of_lt (by decide)

end CppServer.Memory
