import CppServer.Base.Machine
import CppServer.Memory.Steps

namespace CppServer.Memory

open Function Base

/-- A block in a caller's hands: its header, and the `size` of the call. -/
structure Handle where
  header : ℕ
  size : BitVec 32
deriving DecidableEq, Repr

/-- The pointer that the caller has. -/
def Handle.ptr (handle : Handle) : ℕ := attachHeader handle.header

/-- The heap and the threads that use it. `live` is bookkeeping; `crashed` ends
the run. -/
structure Threads (T : Type) where
  heap : Heap := {}
  pc : T → Pc := fun _ => .idle
  live : List Handle := []
  crashed : Option Fault := none

/-- A size that leaves room for the header in an `int32`. -/
def Requestable (size : BitVec 32) : Prop :=
  0 ≤ size.toInt ∧ size.toInt + sizeofMemoryHeader ≤ 2 ^ 31 - 1

/-- The bytes that the next step asks `_aligned_malloc` for. -/
def Pc.request : Pc → Option ℕ
  | .systemMalloc size => some (allocSizeOf size).toNat
  | .popMalloc _ p => some (poolSize p)
  | _ => none

/-- What `_aligned_malloc` promises of `n` bytes at `base`: not null, aligned, and
apart from all blocks that are still allocated. -/
def Fresh (h : Heap) (base : ℕ) (n : ℕ) : Prop :=
  base ≠ 0 ∧ base % 16 = 0 ∧
    ∀ a ∈ h.allocated, a + (h.block a).capacity ≤ base ∨ base + n ≤ a

/-- What a return from `Allocate` adds to the callers' blocks. -/
def Pc.returned (live : List Handle) : Pc → List Handle
  | .attach size header => ⟨header, size⟩ :: live
  | _ => live

/-- A write to the byte at `addr`: a header's `allocSize` changes if the byte is
one of its four, 16 to 19 bytes after the start. -/
def Heap.write (h : Heap) (addr : ℕ) (value : BitVec 32) : Heap :=
  { h with
    block := fun a =>
      if a + 16 ≤ addr ∧ addr < a + 20 then { h.block a with allocSize := value } else h.block a }

theorem Heap.creator_write (h : Heap) (addr : ℕ) (value : BitVec 32) (a : ℕ) :
    ((h.write addr value).block a).creator = (h.block a).creator := by
  simp only [write]
  split
  · rfl
  · rfl

/-- A label: a thread calls `Allocate` or `Release`, takes its next step, or a
caller writes a byte of its data area. -/
inductive Act (T : Type)
  | allocate (t : T) (size : BitVec 32)
  | release (t : T) (handle : Handle)
  | run (t : T) (base : ℕ)
  | write (handle : Handle) (offset : ℕ) (value : BitVec 32)
deriving DecidableEq

instance (size : BitVec 32) : Decidable (Requestable size) := inferInstanceAs (Decidable (_ ∧ _))

instance (h : Heap) (base : ℕ) (n : ℕ) : Decidable (Fresh h base n) :=
  inferInstanceAs (Decidable (_ ∧ _ ∧ _))

namespace Threads

variable {T : Type} [DecidableEq T]

def step (s : Threads T) : Act T → Option (Threads T)
  | .allocate t size =>
    if s.crashed = none ∧ s.pc t = .idle ∧ Requestable size then
      some { s with pc := update s.pc t (.allocate size) }
    else none
  | .release t handle =>
    if s.crashed = none ∧ s.pc t = .idle ∧ handle ∈ s.live then
      some { s with pc := update s.pc t (.release handle.ptr), live := s.live.erase handle }
    else none
  | .run t base =>
    if s.crashed = none ∧ s.pc t ≠ .idle ∧ ∀ n ∈ (s.pc t).request, Fresh s.heap base n then
      match Memory.step base s.heap (s.pc t) with
      | .ok (heap, pc) =>
        some { s with heap, pc := update s.pc t pc, live := (s.pc t).returned s.live }
      | .error fault => some { s with crashed := some fault }
    else none
  | .write handle offset value =>
    if s.crashed = none ∧ handle ∈ s.live ∧ offset < handle.size.toNat then
      some { s with heap := s.heap.write (handle.ptr + offset) value }
    else none

/-- Any number of threads over a new `Memory`. -/
def machine (T : Type) [DecidableEq T] : Machine (Threads T) (Act T) where
  start := {}
  step := step

theorem step_allocate {s s' : Threads T} {t : T} {size : BitVec 32}
    (hstep : step s (.allocate t size) = some s') :
    s.pc t = .idle ∧ Requestable size ∧ s' = { s with pc := update s.pc t (.allocate size) } := by
  simp only [step] at hstep
  split at hstep
  case isTrue h =>
    cases hstep
    exact ⟨h.2.1, h.2.2, rfl⟩
  case isFalse => cases hstep

theorem step_release {s s' : Threads T} {t : T} {handle : Handle}
    (hstep : step s (.release t handle) = some s') :
    s.pc t = .idle ∧ handle ∈ s.live ∧
      s' = { s with pc := update s.pc t (.release handle.ptr), live := s.live.erase handle } := by
  simp only [step] at hstep
  split at hstep
  case isTrue h =>
    cases hstep
    exact ⟨h.2.1, h.2.2, rfl⟩
  case isFalse => cases hstep

/-- A step inside a call either fails and changes nothing else, or is the code's. -/
theorem step_run {s s' : Threads T} {t : T} {base : ℕ} (hstep : step s (.run t base) = some s') :
    (∀ n, (s.pc t).request = some n → Fresh s.heap base n) ∧
      ((∃ fault, Memory.step base s.heap (s.pc t) = .error fault ∧
          s' = { s with crashed := some fault }) ∨
        ∃ heap pc, Memory.step base s.heap (s.pc t) = .ok (heap, pc) ∧
          s' = { s with heap, pc := update s.pc t pc, live := (s.pc t).returned s.live }) := by
  simp only [step] at hstep
  split at hstep
  case isTrue h =>
    refine ⟨fun n hn => h.2.2 n hn, ?_⟩
    cases hcode : Memory.step base s.heap (s.pc t) with
    | error fault =>
      rw [hcode] at hstep
      cases hstep
      exact .inl ⟨fault, rfl, rfl⟩
    | ok next =>
      rw [hcode] at hstep
      cases hstep
      exact .inr ⟨next.1, next.2, rfl, rfl⟩
  case isFalse => cases hstep

theorem step_write {s s' : Threads T} {handle : Handle} {offset : ℕ} {value : BitVec 32}
    (hstep : step s (.write handle offset value) = some s') :
    handle ∈ s.live ∧ offset < handle.size.toNat ∧
      s' = { s with heap := s.heap.write (handle.ptr + offset) value } := by
  simp only [step] at hstep
  split at hstep
  case isTrue h =>
    cases hstep
    exact ⟨h.2.1, h.2.2, rfl⟩
  case isFalse => cases hstep

end Threads

end CppServer.Memory
