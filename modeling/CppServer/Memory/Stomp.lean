import CppServer.StompAllocator
import CppServer.Memory.Steps

namespace CppServer.Memory.Stomp

open Function Base StompAllocator

/-- How a call can fail: an assertion, or an access to memory that is not committed. -/
inductive Fault
  | crash (cause : Cause)
  | accessViolation
deriving DecidableEq, Repr

/-- Where the member `allocSize` lies in a header, and how long it is. -/
def offsetofAllocSize : ℕ := 16

def sizeofAllocSize : ℕ := 4

/-- The committed regions, the `allocSize` of a header at each address, and the addresses
that `VirtualFree` was called with, the last one first. -/
structure Heap where
  regions : List Region := []
  allocSize : ℕ → BitVec 32 := fun _ => 0
  freed : List ℕ := []

/-- The bytes can be accessed. -/
def Heap.Committed (h : Heap) (address length : ℕ) : Prop :=
  ∃ r ∈ h.regions, r.base ≤ address ∧ address + length ≤ r.stop

instance Heap.decidableCommitted (h : Heap) (address length : ℕ) : Decidable (h.Committed address length) :=
  inferInstanceAs (Decidable (∃ r ∈ h.regions, _))

/-- `AttachHeader`. -/
def Heap.attachHeader (h : Heap) (header : ℕ) (size : BitVec 32) : Except Fault (Heap × ℕ) :=
  if h.Committed (header + offsetofAllocSize) sizeofAllocSize then
    .ok ({ h with allocSize := update h.allocSize header size }, Memory.attachHeader header)
  else .error .accessViolation

/-- `Allocate`, where `VirtualAlloc` returns `base`. -/
def Heap.allocate (h : Heap) (size : BitVec 32) (base : ℕ) : Except Fault (Heap × ℕ) :=
  Heap.attachHeader { h with regions := regionAt base (allocSizeOf size) :: h.regions }
    (alloc base (allocSizeOf size)).ptr (allocSizeOf size)

/-- `StompAllocator::Release`. -/
def Heap.virtualFree (h : Heap) (ptr : ℕ) : Heap :=
  { h with regions := StompAllocator.virtualFree h.regions (baseAddress ptr)
           freed := baseAddress ptr :: h.freed }

/-- `Release`. -/
def Heap.release (h : Heap) (ptr : ℕ) : Except Fault Heap :=
  if h.Committed (detachHeader ptr + offsetofAllocSize) sizeofAllocSize then
    if 0 < (h.allocSize (detachHeader ptr)).toInt then .ok (h.virtualFree (detachHeader ptr))
    else .error (.crash .assertCrash)
  else .error .accessViolation

/-- A write to the byte at `addr`: the `allocSize` of a header changes if the byte is part
of it. -/
def Heap.write (h : Heap) (addr : ℕ) (value : BitVec 32) : Heap :=
  { h with allocSize := fun header =>
      if header + offsetofAllocSize ≤ addr ∧ addr < header + offsetofAllocSize + sizeofAllocSize
      then value else h.allocSize header }

/-- A size whose rounding to pages stays within `int32`, with the header. -/
def Requestable (size : BitVec 32) : Prop :=
  0 ≤ size.toInt ∧ size.toInt + sizeofMemoryHeader + pageSize - 1 ≤ 2 ^ 31 - 1

/-- What `VirtualAlloc` promises of the region it returns: it starts with a page, lies in user
space, and is apart from all regions that are committed. -/
def Fresh (regions : List Region) (r : Region) : Prop :=
  r.base ≠ 0 ∧ pageSize ∣ r.base ∧ r.stop < 2 ^ 63 ∧
    ∀ r' ∈ regions, r.stop ≤ r'.base ∨ r'.stop ≤ r.base

instance decidableRequestable (size : BitVec 32) : Decidable (Requestable size) := inferInstanceAs (Decidable (_ ∧ _))

instance decidableFresh (regions : List Region) (r : Region) : Decidable (Fresh regions r) :=
  inferInstanceAs (Decidable (_ ∧ _ ∧ _ ∧ _))

/-- A block in a caller's hands: what `VirtualAlloc` returned, what `Allocate` returned, and
the `size` of the call. -/
structure Handle where
  base : ℕ
  ptr : ℕ
  size : BitVec 32
deriving DecidableEq

def Handle.region (handle : Handle) : Region := regionAt handle.base (allocSizeOf handle.size)

/-- The heap and its callers. -/
structure Program where
  heap : Heap := {}
  live : List Handle := []
  failed : Option Fault := none

/-- A label: a call of `Allocate` or `Release`, or a caller writes a byte of its data area. -/
inductive Act
  | allocate (size : BitVec 32) (base : ℕ)
  | release (handle : Handle)
  | write (handle : Handle) (offset : ℕ) (value : BitVec 32)
deriving DecidableEq

namespace Program

def step (s : Program) : Act → Option Program
  | .allocate size base =>
    if s.failed = none ∧ Requestable size ∧
        Fresh s.heap.regions (regionAt base (allocSizeOf size)) then
      match s.heap.allocate size base with
      | .ok (heap, ptr) => some { s with heap, live := ⟨base, ptr, size⟩ :: s.live }
      | .error fault => some { s with failed := some fault }
    else none
  | .release handle =>
    if s.failed = none ∧ handle ∈ s.live then
      match s.heap.release handle.ptr with
      | .ok heap => some { s with heap, live := s.live.erase handle }
      | .error fault => some { s with failed := some fault }
    else none
  | .write handle offset value =>
    if s.failed = none ∧ handle ∈ s.live ∧ offset < handle.size.toNat then
      some { s with heap := s.heap.write (handle.ptr + offset) value }
    else none

def machine : Machine Program Act where
  start := {}
  step := step

theorem step_allocate {s s' : Program} {size : BitVec 32} {base : ℕ}
    (hstep : s.step (.allocate size base) = some s') :
    Requestable size ∧ Fresh s.heap.regions (regionAt base (allocSizeOf size)) ∧
      ((∃ fault, s.heap.allocate size base = .error fault ∧ s' = { s with failed := some fault }) ∨
        ∃ heap ptr, s.heap.allocate size base = .ok (heap, ptr) ∧
          s' = { s with heap, live := ⟨base, ptr, size⟩ :: s.live }) := by
  simp only [step] at hstep
  split at hstep
  case isTrue h =>
    refine ⟨h.2.1, h.2.2, ?_⟩
    cases hcode : s.heap.allocate size base with
    | error fault =>
      rw [hcode] at hstep
      cases hstep
      exact .inl ⟨fault, rfl, rfl⟩
    | ok next =>
      rw [hcode] at hstep
      cases hstep
      exact .inr ⟨next.1, next.2, rfl, rfl⟩
  case isFalse => cases hstep

theorem step_release {s s' : Program} {handle : Handle} (hstep : s.step (.release handle) = some s') :
    handle ∈ s.live ∧
      ((∃ fault, s.heap.release handle.ptr = .error fault ∧ s' = { s with failed := some fault }) ∨
        ∃ heap, s.heap.release handle.ptr = .ok heap ∧
          s' = { s with heap, live := s.live.erase handle }) := by
  simp only [step] at hstep
  split at hstep
  case isTrue h =>
    refine ⟨h.2, ?_⟩
    cases hcode : s.heap.release handle.ptr with
    | error fault =>
      rw [hcode] at hstep
      cases hstep
      exact .inl ⟨fault, rfl, rfl⟩
    | ok heap =>
      rw [hcode] at hstep
      cases hstep
      exact .inr ⟨heap, rfl, rfl⟩
  case isFalse => cases hstep

theorem step_write {s s' : Program} {handle : Handle} {offset : ℕ} {value : BitVec 32}
    (hstep : s.step (.write handle offset value) = some s') :
    handle ∈ s.live ∧ offset < handle.size.toNat ∧
      s' = { s with heap := s.heap.write (handle.ptr + offset) value } := by
  simp only [step] at hstep
  split at hstep
  case isTrue h =>
    cases hstep
    exact ⟨h.2.1, h.2.2, rfl⟩
  case isFalse => cases hstep

end Program

variable {h : Heap} {size : BitVec 32} {base : ℕ}

theorem Requestable.toInt_allocSizeOf (hsize : Requestable size) :
    (allocSizeOf size).toInt = size.toInt + sizeofMemoryHeader := by
  obtain ⟨hnonneg, hle⟩ := hsize
  simp only [sizeofMemoryHeader, pageSize] at *
  rw [allocSizeOf_eq, BitVec.toInt_add]
  rw [show (32 : BitVec 32).toInt = 32 by decide]
  rw [Int.bmod_eq_of_le (by omega) (by omega)]
  rfl

/-- The header with its data is a block that the allocator can round to pages. -/
theorem Requestable.whole (hsize : Requestable size) : StompAllocator.Requestable (allocSizeOf size) := by
  have hsum := hsize.toInt_allocSizeOf
  obtain ⟨hnonneg, hle⟩ := hsize
  simp only [StompAllocator.Requestable, sizeofMemoryHeader, pageSize] at *
  omega

/-- Where `Allocate` puts a block in the region that starts at `base`. -/
structure Placed (size : BitVec 32) (base ptr : ℕ) : Prop where
  stop : ptr + size.toInt.toNat = (regionAt base (allocSizeOf size)).stop
  header : attachHeader (detachHeader ptr) = ptr
  inside : base ≤ detachHeader ptr
  page : detachHeader ptr < base + pageSize
  floor : baseAddress (detachHeader ptr) = base

/-- The block ends with the region, and the header starts in the first page. -/
theorem placed (hsize : Requestable size) (hbase : pageSize ∣ base) :
    Placed size base (attachHeader (alloc base (allocSizeOf size)).ptr) := by
  obtain ⟨hstop, hfloor, hnonempty⟩ := alloc_spec hsize.whole hbase
  have hsum := hsize.toInt_allocSizeOf
  have hnonneg := hsize.1
  generalize (alloc base (allocSizeOf size)).ptr = header at *
  have hmod : header % pageSize < pageSize := Nat.mod_lt _ (by decide)
  have hle : header % pageSize ≤ header := Nat.mod_le _ _
  simp only [baseAddress] at hfloor
  refine ⟨?_, by rw [detachHeader_attachHeader], ?_, ?_, ?_⟩
  · simp only [attachHeader, sizeofMemoryHeader] at *
    omega
  · rw [detachHeader_attachHeader]
    omega
  · rw [detachHeader_attachHeader]
    omega
  · rw [detachHeader_attachHeader]
    exact hfloor

theorem Placed.header_inside {ptr : ℕ} (hplaced : Placed size base ptr) :
    detachHeader ptr + sizeofMemoryHeader ≤ (regionAt base (allocSizeOf size)).stop := by
  have hstop := hplaced.stop
  have hheader := hplaced.header
  simp only [attachHeader] at hheader
  omega

theorem Placed.committed {ptr : ℕ} (hplaced : Placed size base ptr)
    (hregion : regionAt base (allocSizeOf size) ∈ h.regions) :
    h.Committed (detachHeader ptr + offsetofAllocSize) sizeofAllocSize := by
  have hinside := hplaced.inside
  have hheader := hplaced.header_inside
  refine ⟨_, hregion, ?_, ?_⟩
  · simp only [regionAt, offsetofAllocSize]
    omega
  · simp only [offsetofAllocSize, sizeofAllocSize, sizeofMemoryHeader] at *
    omega

/-- `Allocate` does not fail on a fresh region. -/
theorem allocate_spec (hsize : Requestable size) (hbase : pageSize ∣ base) :
    ∃ ptr, Placed size base ptr ∧
      h.allocate size base = .ok
        ({ h with regions := regionAt base (allocSizeOf size) :: h.regions
                  allocSize := update h.allocSize (detachHeader ptr) (allocSizeOf size) }, ptr) := by
  have hplaced := placed hsize hbase
  refine ⟨_, hplaced, ?_⟩
  have hcommitted := hplaced.committed (h := { h with regions := regionAt base (allocSizeOf size) :: h.regions })
    List.mem_cons_self
  rw [detachHeader_attachHeader] at hcommitted ⊢
  rw [Heap.allocate, Heap.attachHeader, if_pos hcommitted]

/-- `Release` of a block whose header is intact frees the base of its region. -/
theorem release_spec {ptr : ℕ} (hsize : Requestable size) (hplaced : Placed size base ptr)
    (hregion : regionAt base (allocSizeOf size) ∈ h.regions)
    (hheader : h.allocSize (detachHeader ptr) = allocSizeOf size) :
    h.release ptr = .ok { h with regions := StompAllocator.virtualFree h.regions base
                                 freed := base :: h.freed } := by
  have hpos : 0 < (h.allocSize (detachHeader ptr)).toInt := by
    rw [hheader]
    exact hsize.whole.1
  rw [Heap.release, if_pos (hplaced.committed hregion), if_pos hpos, Heap.virtualFree, hplaced.floor]

/-- The regions of live blocks are committed and apart, and their headers are intact. -/
structure Inv (s : Program) : Prop where
  safe : s.failed = none
  size : ∀ handle ∈ s.live, Requestable handle.size
  placed : ∀ handle ∈ s.live, Placed handle.size handle.base handle.ptr
  region : ∀ handle ∈ s.live, handle.region ∈ s.heap.regions
  header : ∀ handle ∈ s.live, s.heap.allocSize (detachHeader handle.ptr) = allocSizeOf handle.size
  apart : ∀ a ∈ s.live, ∀ b ∈ s.live, a ≠ b →
    a.region.stop ≤ b.region.base ∨ b.region.stop ≤ a.region.base
  nodup : s.live.Nodup

variable {s s' : Program} {handle : Handle}

theorem Placed.base_lt_stop {ptr : ℕ} (hplaced : Placed size base ptr) :
    base < (regionAt base (allocSizeOf size)).stop := by
  have hinside := hplaced.inside
  have hheader := hplaced.header_inside
  simp only [sizeofMemoryHeader] at hheader
  omega

/-- Blocks in regions that are apart have different headers, also as bytes. -/
theorem Placed.header_ne {size' : BitVec 32} {base' ptr ptr' : ℕ} (hplaced : Placed size base ptr)
    (hplaced' : Placed size' base' ptr')
    (hapart : (regionAt base (allocSizeOf size)).stop ≤ base' ∨
      (regionAt base' (allocSizeOf size')).stop ≤ base) :
    detachHeader ptr ≠ detachHeader ptr' := by
  have hinside := hplaced.inside
  have hheader := hplaced.header_inside
  have hinside' := hplaced'.inside
  have hheader' := hplaced'.header_inside
  simp only [sizeofMemoryHeader] at *
  omega

theorem inv_start : Inv Program.machine.start := by
  refine ⟨rfl, ?_, ?_, ?_, ?_, ?_, List.nodup_nil⟩
  all_goals exact fun handle hmem => absurd hmem List.not_mem_nil

theorem Inv.allocated (hinv : Inv s) (hsize : Requestable size)
    (hfresh : Fresh s.heap.regions (regionAt base (allocSizeOf size)))
    (hstep : s.step (.allocate size base) = some s') : Inv s' := by
  obtain ⟨-, hpage, -, hclear⟩ := hfresh
  have hbase : pageSize ∣ base := hpage
  obtain ⟨ptr, hplaced, hcode⟩ := allocate_spec (h := s.heap) hsize hbase
  obtain ⟨-, -, ⟨fault, hfault, -⟩ | ⟨heap, ptr', hok, rfl⟩⟩ := Program.step_allocate hstep
  · rw [hcode] at hfault
    cases hfault
  rw [hcode] at hok
  cases hok
  -- the other regions are apart from the new one
  have hother (b : Handle) (hb : b ∈ s.live) :
      (regionAt base (allocSizeOf size)).stop ≤ b.base ∨ b.region.stop ≤ base :=
    hclear _ (hinv.region b hb)
  refine ⟨hinv.safe, fun b hb => ?_, fun b hb => ?_, fun b hb => ?_, fun b hb => ?_,
    fun a ha b hb hne => ?_, ?_⟩
  · rcases List.mem_cons.mp hb with rfl | hb
    · exact hsize
    · exact hinv.size b hb
  · rcases List.mem_cons.mp hb with rfl | hb
    · exact hplaced
    · exact hinv.placed b hb
  · rcases List.mem_cons.mp hb with rfl | hb
    · exact List.mem_cons_self
    · exact List.mem_cons_of_mem _ (hinv.region b hb)
  · rcases List.mem_cons.mp hb with rfl | hb
    · exact update_self ..
    · have hne := (hinv.placed b hb).header_ne hplaced (hother b hb).symm
      simp only [update_of_ne hne]
      exact hinv.header b hb
  · rcases List.mem_cons.mp ha with rfl | ha
    · rcases List.mem_cons.mp hb with rfl | hb
      · exact absurd rfl hne
      · exact hother b hb
    · rcases List.mem_cons.mp hb with rfl | hb
      · exact (hother a ha).symm
      · exact hinv.apart a ha b hb hne
  · refine List.nodup_cons.mpr ⟨fun hmem => ?_, hinv.nodup⟩
    have hnonempty := hplaced.base_lt_stop
    rcases hother _ hmem with hle | hle
    · exact absurd hle (not_le_of_gt hnonempty)
    · exact absurd hle (not_le_of_gt hnonempty)

theorem Inv.released (hinv : Inv s) (hmem : handle ∈ s.live)
    (hstep : s.step (.release handle) = some s') : Inv s' := by
  have hcode := release_spec (hinv.size _ hmem) (hinv.placed _ hmem) (hinv.region _ hmem)
    (hinv.header _ hmem)
  obtain ⟨-, ⟨fault, hfault, -⟩ | ⟨heap, hok, rfl⟩⟩ := Program.step_release hstep
  · rw [hcode] at hfault
    cases hfault
  rw [hcode] at hok
  cases hok
  have hlive (b : Handle) (hb : b ∈ s.live.erase handle) : b ≠ handle ∧ b ∈ s.live :=
    hinv.nodup.mem_erase_iff.mp hb
  refine ⟨hinv.safe, fun b hb => hinv.size b (hlive b hb).2, fun b hb => hinv.placed b (hlive b hb).2,
    fun b hb => ?_, fun b hb => hinv.header b (hlive b hb).2, fun a ha b hb hne => ?_,
    hinv.nodup.erase handle⟩
  · obtain ⟨hne, hb⟩ := hlive b hb
    refine mem_virtualFree.mpr ⟨hinv.region b hb, ?_⟩
    have hnonempty := (hinv.placed b hb).base_lt_stop
    have hnonempty' := (hinv.placed handle hmem).base_lt_stop
    have hapart := hinv.apart b hb handle hmem hne
    simp only [Handle.region, regionAt, Region.stop] at *
    omega
  · exact hinv.apart a (hlive a ha).2 b (hlive b hb).2 hne

/-- A caller's write inside its data area reaches no header. -/
theorem Inv.written (hinv : Inv s) (hmem : handle ∈ s.live) {offset : ℕ}
    (hoffset : offset < handle.size.toNat) (value : BitVec 32) :
    Inv { s with heap := s.heap.write (handle.ptr + offset) value } := by
  refine ⟨hinv.safe, hinv.size, hinv.placed, hinv.region, fun b hb => ?_, hinv.apart, hinv.nodup⟩
  rw [← hinv.header b hb]
  refine if_neg fun hhit => ?_
  have hplaced := hinv.placed handle hmem
  have hplaced' := hinv.placed b hb
  have hsize := toNat_of_nonneg (hinv.size handle hmem).1
  have hstop := hplaced.stop
  have hheader := hplaced.header
  by_cases hsame : b = handle
  · subst hsame
    simp only [attachHeader, offsetofAllocSize, sizeofAllocSize, sizeofMemoryHeader] at *
    omega
  · have hapart := hinv.apart b hb handle hmem hsame
    have hinside := hplaced.inside
    have hinside' := hplaced'.inside
    have hend' := hplaced'.header_inside
    simp only [Handle.region, regionAt, attachHeader, offsetofAllocSize, sizeofAllocSize,
      sizeofMemoryHeader] at *
    omega

theorem Inv.step {a : Act} (hinv : Inv s) (hstep : s.step a = some s') : Inv s' := by
  cases a with
  | allocate size base =>
    obtain ⟨hsize, hfresh, -⟩ := Program.step_allocate hstep
    exact hinv.allocated hsize hfresh hstep
  | release handle => exact hinv.released (Program.step_release hstep).1 hstep
  | write handle offset value =>
    obtain ⟨hmem, hoffset, rfl⟩ := Program.step_write hstep
    exact hinv.written hmem hoffset value

theorem inv_run {as : List Act} (hrun : Program.machine.Run Machine.Any as s) : Inv s :=
  hrun.invariant inv_start fun _ _ _ hinv _ hstep => hinv.step hstep

/-- In every state of every run: `Allocate` returns a block that ends with its region, with the
header inside the region and starting in its first page, and `Release` frees exactly the base
that `VirtualAlloc` returned, of the new block and of every live one. -/
theorem release_undoes_allocate {as : List Act} (hrun : Program.machine.Run Machine.Any as s) :
    (∀ size base, Requestable size → Fresh s.heap.regions (regionAt base (allocSizeOf size)) →
      ∃ heap ptr, s.heap.allocate size base = .ok (heap, ptr) ∧
        ptr + size.toInt.toNat = (regionAt base (allocSizeOf size)).stop ∧
        base ≤ detachHeader ptr ∧ detachHeader ptr < base + pageSize ∧
        detachHeader ptr + sizeofMemoryHeader ≤ (regionAt base (allocSizeOf size)).stop ∧
        ∃ heap', heap.release ptr = .ok heap' ∧ heap'.freed = base :: heap.freed) ∧
    (∀ handle ∈ s.live, ∃ heap', s.heap.release handle.ptr = .ok heap' ∧
      heap'.freed = handle.base :: s.heap.freed) ∧
    s.failed = none := by
  have hinv := inv_run hrun
  refine ⟨fun size base hsize hfresh => ?_, fun handle hmem => ?_, hinv.safe⟩
  · have hbase : pageSize ∣ base := hfresh.2.1
    obtain ⟨ptr, hplaced, hcode⟩ := allocate_spec (h := s.heap) hsize hbase
    have hrelease := release_spec hsize hplaced
      (h := { s.heap with
        regions := regionAt base (allocSizeOf size) :: s.heap.regions
        allocSize := update s.heap.allocSize (detachHeader ptr) (allocSizeOf size) })
      List.mem_cons_self (update_self ..)
    exact ⟨_, ptr, hcode, hplaced.stop, hplaced.inside, hplaced.page, hplaced.header_inside, _,
      hrelease, rfl⟩
  · exact ⟨_, release_spec (hinv.size _ hmem) (hinv.placed _ hmem) (hinv.region _ hmem)
      (hinv.header _ hmem), rfl⟩

/-- A block of 100 bytes, and one that fills two pages with its header. -/
def twoBlocks : List Act := [.allocate 100 0x10000, .allocate 8160 0x20000]

theorem release_undoes_two :
    ∃ s, Program.machine.exec Program.machine.start twoBlocks = some s ∧ s.live.length = 2 ∧
      ∀ handle ∈ s.live, ∃ heap', s.heap.release handle.ptr = .ok heap' ∧
        heap'.freed = handle.base :: s.heap.freed := by
  have hexec : (Program.machine.exec Program.machine.start twoBlocks).any
      (fun s => s.live.length = 2) = true := by decide
  obtain ⟨s, hs, hlive⟩ := (Option.any_eq_true ..).mp hexec
  exact ⟨s, hs, of_decide_eq_true hlive, (release_undoes_allocate (Machine.run_of_exec hs)).2.1⟩

end CppServer.Memory.Stomp
