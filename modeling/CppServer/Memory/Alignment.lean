import CppServer.Memory.Pooling
import CppServer.Memory.Stomp

namespace CppServer.Memory

open Base StompAllocator

/-- `SLIST_ALIGNMENT`, which `MemoryHeader` is declared with. -/
def slistAlignment : ℕ := 16

/-- The branches of `Allocate`: the last one is that of a build with `_STOMP`. -/
inductive Path
  | pool
  | alignedMalloc
  | stomp
deriving DecidableEq

/-- `Allocate(size)` reaches `AttachHeader(header, allocSize)` by the branch, in some run. -/
inductive HeaderAt (size : BitVec 32) (header : ℕ) : Path → Prop
  | pool {T : Type} [DecidableEq T] {as : List (Act T)} {s : Threads T} {t : T} {p : ℕ} :
      (Threads.machine T).Run Machine.Any as s → s.pc t = .attach size header →
      route (allocSizeOf size) = .ok (.pool p) → HeaderAt size header .pool
  | alignedMalloc {T : Type} [DecidableEq T] {as : List (Act T)} {s : Threads T} {t : T} :
      (Threads.machine T).Run Machine.Any as s → s.pc t = .attach size header →
      route (allocSizeOf size) = .ok .system → HeaderAt size header .alignedMalloc
  | stomp {as : List Stomp.Act} {s : Stomp.Program} {base : ℕ} {heap : Stomp.Heap} :
      Stomp.Program.machine.Run Machine.Any as s →
      Stomp.Fresh s.heap.regions (regionAt base (allocSizeOf size)) →
      s.heap.allocate size base = .ok (heap, attachHeader header) → HeaderAt size header .stomp

/-- The header and the data behind it lie at multiples of the alignment. -/
def Aligned (header : ℕ) : Prop := slistAlignment ∣ header ∧ slistAlignment ∣ attachHeader header

instance decidableAligned (header : ℕ) : Decidable (Aligned header) :=
  inferInstanceAs (Decidable (_ ∧ _))

variable {size : BitVec 32} {header : ℕ}

/-- The size of a header is a multiple of the alignment. -/
theorem aligned_iff_dvd : Aligned header ↔ slistAlignment ∣ header := by
  simp only [Aligned, attachHeader, slistAlignment, sizeofMemoryHeader]
  omega

/-- Blocks of the pools and of `_aligned_malloc` stay where `_aligned_malloc` put them. -/
theorem aligned_of_attach {T : Type} [DecidableEq T] {as : List (Act T)} {s : Threads T} {t : T}
    (hrun : (Threads.machine T).Run Machine.Any as s) (hpc : s.pc t = .attach size header) :
    Aligned header := by
  obtain ⟨owner, hinv⟩ := exists_inv hrun
  have howns : Owns s (.call t) header := by
    simp [Owns, hpc, Pc.block]
  have hplaced := hinv.apart.placed header (hinv.mem_of_owns howns)
  rw [aligned_iff_dvd]
  exact Nat.dvd_of_mod_eq_zero hplaced.2.1

/-- The region of a block consists of whole pages, not more than fit into `int32` and one. -/
theorem regionAt_length (hsize : Stomp.Requestable size) (base : ℕ) :
    pageSize ∣ (regionAt base (allocSizeOf size)).length ∧
      (regionAt base (allocSizeOf size)).length < 2 ^ 32 := by
  obtain ⟨hnonneg, hlt, hpages⟩ := dataOffset_spec hsize.whole
  have hle := hsize.whole.2
  simp only [regionAt, dataOffset, pageSize] at *
  omega

theorem dvd_stop (hsize : Stomp.Requestable size) {base : ℕ} (hbase : pageSize ∣ base) :
    pageSize ∣ (regionAt base (allocSizeOf size)).stop :=
  hbase.add (regionAt_length hsize base).1

/-- A block that ends with its pages is aligned exactly if its size is a multiple. -/
theorem Stomp.Placed.aligned_iff_size {base : ℕ} (hplaced : Stomp.Placed size base (attachHeader header))
    (hsize : Stomp.Requestable size) (hbase : pageSize ∣ base) :
    Aligned header ↔ (slistAlignment : ℤ) ∣ size.toInt := by
  have hstop := hplaced.stop
  have hnonneg := hsize.1
  have hpages := dvd_stop hsize hbase
  rw [aligned_iff_dvd]
  simp only [attachHeader, sizeofMemoryHeader, slistAlignment, pageSize] at *
  omega

/-- The first region of a program may start with the second page of memory. -/
theorem fresh_first (hsize : Stomp.Requestable size) :
    Stomp.Fresh [] (regionAt pageSize (allocSizeOf size)) := by
  have hlength := (regionAt_length hsize pageSize).2
  have hnull : pageSize ≠ 0 := by decide
  refine ⟨hnull, dvd_refl _, ?_, fun r hr => absurd hr List.not_mem_nil⟩
  simp only [Region.stop, regionAt, pageSize] at *
  omega

/-- The branches of `Allocate` that end in the pools and in `_aligned_malloc` always return
aligned blocks, and the one of `_STOMP` exactly for sizes that are multiples of the alignment. -/
theorem aligned_iff (path : Path) {size : BitVec 32} (hsize : Stomp.Requestable size) :
    (∀ header, HeaderAt size header path → slistAlignment ∣ header ∧
        slistAlignment ∣ attachHeader header) ↔
      (path = .stomp → size.toInt % slistAlignment = 0) := by
  constructor
  · rintro haligned rfl
    obtain ⟨ptr, hplaced, hcode⟩ :=
      Stomp.allocate_spec (h := Stomp.Program.machine.start.heap) hsize (dvd_refl pageSize)
    obtain ⟨header, rfl⟩ : ∃ header, attachHeader header = ptr := ⟨_, hplaced.header⟩
    have hheader := haligned _ (.stomp .start (fresh_first hsize) hcode)
    exact Int.emod_eq_zero_of_dvd ((hplaced.aligned_iff_size hsize (dvd_refl _)).mp hheader)
  · intro hmultiple header hat
    cases hat with
    | pool hrun hpc _ => exact aligned_of_attach hrun hpc
    | alignedMalloc hrun hpc _ => exact aligned_of_attach hrun hpc
    | @stomp _ s base _ hrun hfresh hcode =>
      have hbase : pageSize ∣ base := hfresh.2.1
      obtain ⟨ptr, hplaced, hspec⟩ := Stomp.allocate_spec (h := s.heap) hsize hbase
      rw [hspec] at hcode
      cases hcode
      exact (hplaced.aligned_iff_size hsize hbase).mpr (Int.dvd_of_emod_eq_zero (hmultiple rfl))

theorem aligned_iff_forty :
    ∃ header, HeaderAt 40 header .stomp ∧ ¬ Aligned header := by
  by_contra hnone
  have haligned : ∀ header, HeaderAt 40 header .stomp → Aligned header :=
    fun header hat => by_contra fun hnot => hnone ⟨header, hat, hnot⟩
  have hmultiple := (aligned_iff .stomp (by decide)).mp haligned rfl
  exact absurd hmultiple (by decide)

/-- A block of 40 bytes ends with its page, and so its header and its data lie 8 bytes behind a
multiple of the alignment. -/
theorem stomp_not_aligned :
    Stomp.Requestable 40 ∧ Stomp.Fresh [] (regionAt 0x10000 (allocSizeOf 40)) ∧
      (Stomp.Program.machine.start.heap.allocate 40 0x10000).toOption.map Prod.snd = some 0x10fd8 ∧
      0x10fd8 = attachHeader 0x10fb8 ∧ 0x10fb8 % slistAlignment = 8 ∧ 0x10fd8 % slistAlignment = 8 := by
  decide

end CppServer.Memory
