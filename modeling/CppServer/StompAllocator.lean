import CppServer.Base.Machine

namespace CppServer.StompAllocator

open Base

def pageSize : ℕ := 0x1000

/-- The granularity of `VirtualAlloc`. -/
def granularity : ℕ := 0x10000

/-- A region that `VirtualAlloc` has reserved and committed. -/
structure Region where
  base : ℕ
  length : ℕ
deriving DecidableEq, Repr

def Region.stop (r : Region) : ℕ := r.base + r.length

def Region.Contains (r : Region) (address : ℕ) : Prop := r.base ≤ address ∧ address < r.stop

/-- A block in a caller's hands. -/
structure Block where
  ptr : ℕ
  size : BitVec 32
deriving DecidableEq, Repr

/-- The arithmetic of `Alloc`: `int32` up to the division, which truncates, `int64` from
there on. -/
def pageCount (size : BitVec 32) : ℤ := (size.toInt + pageSize - 1).tdiv pageSize

def dataOffset (size : BitVec 32) : ℤ := pageCount size * pageSize - size.toInt

/-- The region that `Alloc` asks for. -/
def regionAt (base : ℕ) (size : BitVec 32) : Region := ⟨base, (pageCount size * pageSize).toNat⟩

/-- `Alloc`, once `VirtualAlloc` has returned `base`. -/
def alloc (base : ℕ) (size : BitVec 32) : Block := ⟨(base + dataOffset size).toNat, size⟩

/-- The address that `Release` computes. -/
def baseAddress (ptr : ℕ) : ℕ := ptr - ptr % pageSize

/-- `VirtualFree` with `MEM_RELEASE` frees the region that starts at the address, and
fails at other addresses. -/
def virtualFree (regions : List Region) (base : ℕ) : List Region :=
  regions.filter fun r => r.base ≠ base

/-- The live regions, and the blocks in the callers' hands. -/
structure Heap where
  regions : List Region := []
  live : List Block := []

/-- A byte is accessible in a live region only. -/
def Heap.Accessible (h : Heap) (address : ℕ) : Prop := ∃ r ∈ h.regions, r.Contains address

/-- A size whose rounding stays within `int32`. -/
def Requestable (size : BitVec 32) : Prop :=
  1 ≤ size.toInt ∧ size.toInt + pageSize - 1 ≤ 2 ^ 31 - 1

/-- What `VirtualAlloc` promises of the region it returns; addresses of user space fit
into `int64`. -/
def Fresh (regions : List Region) (r : Region) : Prop :=
  r.base ≠ 0 ∧ granularity ∣ r.base ∧ r.stop < 2 ^ 63 ∧
    ∀ r' ∈ regions, r.stop ≤ r'.base ∨ r'.stop ≤ r.base

instance (size : BitVec 32) : Decidable (Requestable size) := inferInstanceAs (Decidable (_ ∧ _))

instance (regions : List Region) (r : Region) : Decidable (Fresh regions r) :=
  inferInstanceAs (Decidable (_ ∧ _ ∧ _ ∧ _))

inductive Act
  | alloc (size : BitVec 32) (base : ℕ)
  | release (block : Block)
deriving DecidableEq

namespace Heap

def step (h : Heap) : Act → Option Heap
  | .alloc size base =>
    if Requestable size ∧ Fresh h.regions (regionAt base size) then
      some { regions := regionAt base size :: h.regions, live := alloc base size :: h.live }
    else none
  | .release block =>
    if block ∈ h.live then
      some { regions := virtualFree h.regions (baseAddress block.ptr)
             live := h.live.erase block }
    else none

def machine : Machine Heap Act where
  start := {}
  step := step

/-- The byte directly after each live block is not accessible. -/
def Guarded (h : Heap) : Prop :=
  ∀ block ∈ h.live, ¬ h.Accessible (block.ptr + block.size.toInt.toNat)

end Heap

/-- A region of a multiple of the granularity lies directly before another. -/
def Region.Touches (r r' : Region) : Prop := granularity ∣ r.length ∧ r.stop = r'.base

/-- The rounding of `Alloc`. -/
theorem dataOffset_spec {size : BitVec 32} (hsize : Requestable size) :
    0 ≤ dataOffset size ∧ dataOffset size < pageSize ∧ 0 < pageCount size := by
  obtain ⟨hpos, -⟩ := hsize
  have hdiv : pageCount size = (size.toInt + pageSize - 1) / pageSize :=
    Int.tdiv_eq_ediv_of_nonneg (by simp only [pageSize]; omega)
  simp only [dataOffset, hdiv, pageSize]
  omega

theorem pageSize_dvd_granularity : pageSize ∣ granularity := by decide

/-- A block ends where its pages do, and starts in the first of them. -/
theorem alloc_spec {size : BitVec 32} (hsize : Requestable size) {base : ℕ}
    (hbase : pageSize ∣ base) :
    (alloc base size).ptr + size.toInt.toNat = (regionAt base size).stop ∧
      baseAddress (alloc base size).ptr = base ∧ base < (regionAt base size).stop := by
  obtain ⟨hnonneg, hlt, hpages⟩ := dataOffset_spec hsize
  have hpos := hsize.1
  have hlength : pageCount size * pageSize = dataOffset size + size.toInt := by
    simp only [dataOffset]
    omega
  simp only [alloc, regionAt, Region.stop, baseAddress, hlength, pageSize] at *
  omega

/-- The region of a block. -/
def Block.region (block : Block) : Region := regionAt (baseAddress block.ptr) block.size

/-- The blocks and the live regions correspond, and the regions are aligned and apart. -/
structure Inv (h : Heap) : Prop where
  fits : ∀ block ∈ h.live,
    Requestable block.size ∧ block = alloc (baseAddress block.ptr) block.size ∧ block.region ∈ h.regions
  owned : ∀ r ∈ h.regions, ∃ block ∈ h.live, block.region = r
  aligned : ∀ r ∈ h.regions, granularity ∣ r.base ∧ r.base < r.stop
  apart : ∀ r ∈ h.regions, ∀ r' ∈ h.regions, r ≠ r' → r.stop ≤ r'.base ∨ r'.stop ≤ r.base
  sole : ∀ block ∈ h.live, ∀ block' ∈ h.live,
    baseAddress block.ptr = baseAddress block'.ptr → block = block'
  nodup : h.live.Nodup

variable {h h' : Heap} {size : BitVec 32} {base : ℕ}

theorem Inv.stop_eq (hinv : Inv h) {block : Block} (hblock : block ∈ h.live) :
    block.ptr + block.size.toInt.toNat = block.region.stop := by
  obtain ⟨hsize, heq, hmem⟩ := hinv.fits block hblock
  have hpage := pageSize_dvd_granularity.trans (hinv.aligned _ hmem).1
  have hspec := (alloc_spec hsize hpage).1
  rw [← show block = alloc block.region.base block.size from heq] at hspec
  exact hspec

/-- Behind a region only the start of another one is accessible. -/
theorem Inv.accessible_stop (hinv : Inv h) {r : Region} (hr : r ∈ h.regions) :
    h.Accessible r.stop ↔ ∃ r' ∈ h.regions, r'.base = r.stop := by
  constructor
  · rintro ⟨r', hr', hle, hlt⟩
    refine ⟨r', hr', ?_⟩
    have hne : r ≠ r' := by
      rintro rfl
      exact absurd hlt (lt_irrefl _)
    have hnonempty := (hinv.aligned r hr).2
    rcases hinv.apart r hr r' hr' hne with hbefore | hafter
    · omega
    · omega
  · rintro ⟨r', hr', heq⟩
    exact ⟨r', hr', heq.le, heq ▸ (hinv.aligned r' hr').2⟩

/-- A region is as long as the distance of two aligned addresses if another starts behind it. -/
theorem Inv.dvd_length (hinv : Inv h) {r r' : Region} (hr : r ∈ h.regions) (hr' : r' ∈ h.regions)
    (heq : r'.base = r.stop) : granularity ∣ r.length := by
  have hstop : granularity ∣ r.base + r.length := by
    have hbase := (hinv.aligned r' hr').1
    rwa [heq] at hbase
  exact (Nat.dvd_add_right (hinv.aligned r hr).1).mp hstop

theorem Inv.guarded_iff_apart (hinv : Inv h) :
    h.Guarded ↔ ∀ r ∈ h.regions, ∀ r' ∈ h.regions, r'.base ≠ r.stop := by
  constructor
  · intro hguarded r hr r' hr' heq
    obtain ⟨block, hblock, rfl⟩ := hinv.owned r hr
    apply hguarded block hblock
    rw [hinv.stop_eq hblock, hinv.accessible_stop hr]
    exact ⟨r', hr', heq⟩
  · intro hapart block hblock haccessible
    have hmem := (hinv.fits block hblock).2.2
    rw [hinv.stop_eq hblock, hinv.accessible_stop hmem] at haccessible
    obtain ⟨r', hr', heq⟩ := haccessible
    exact hapart _ hmem r' hr' heq

theorem Inv.alloc (hinv : Inv h) (hsize : Requestable size)
    (hfresh : Fresh h.regions (regionAt base size)) :
    Inv ⟨regionAt base size :: h.regions, StompAllocator.alloc base size :: h.live⟩ := by
  obtain ⟨-, hbase, -, hclear⟩ := hfresh
  have hbase : granularity ∣ base := hbase
  obtain ⟨-, hfloor, hnonempty⟩ := alloc_spec hsize (pageSize_dvd_granularity.trans hbase)
  have hregion : (StompAllocator.alloc base size).region = regionAt base size := by
    rw [Block.region, hfloor]
    rfl
  -- the regions of the other blocks start elsewhere
  have hother (block : Block) (hblock : block ∈ h.live) : baseAddress block.ptr ≠ base := by
    intro heq
    have hmem := (hinv.fits block hblock).2.2
    have hbase' : block.region.base = base := heq
    have hnonempty' := (hinv.aligned _ hmem).2
    have hstart : (regionAt base size).base = base := rfl
    rcases hclear _ hmem with hbefore | hafter
    · omega
    · omega
  refine ⟨fun block hblock => ?_, fun r hr => ?_, fun r hr => ?_, fun r hr r' hr' hne => ?_,
    fun block hblock block' hblock' heq => ?_, ?_⟩
  · rcases List.mem_cons.mp hblock with rfl | hblock
    · refine ⟨hsize, ?_, hregion ▸ List.mem_cons_self⟩
      rw [hfloor]
      rfl
    · obtain ⟨hsize', heq, hmem⟩ := hinv.fits block hblock
      exact ⟨hsize', heq, List.mem_cons_of_mem _ hmem⟩
  · rcases List.mem_cons.mp hr with rfl | hr
    · exact ⟨_, List.mem_cons_self, hregion⟩
    · obtain ⟨block, hblock, heq⟩ := hinv.owned r hr
      exact ⟨block, List.mem_cons_of_mem _ hblock, heq⟩
  · rcases List.mem_cons.mp hr with rfl | hr
    · exact ⟨hbase, hnonempty⟩
    · exact hinv.aligned r hr
  · rcases List.mem_cons.mp hr with rfl | hr
    · rcases List.mem_cons.mp hr' with rfl | hr'
      · exact absurd rfl hne
      · exact hclear r' hr'
    · rcases List.mem_cons.mp hr' with rfl | hr'
      · exact (hclear r hr).symm
      · exact hinv.apart r hr r' hr' hne
  · rcases List.mem_cons.mp hblock with rfl | hblock
    · rcases List.mem_cons.mp hblock' with rfl | hblock'
      · rfl
      · exact absurd (heq.symm.trans hfloor) (hother block' hblock')
    · rcases List.mem_cons.mp hblock' with rfl | hblock'
      · exact absurd (heq.trans hfloor) (hother block hblock)
      · exact hinv.sole block hblock block' hblock' heq
  · exact hinv.nodup.cons fun hmem => hother _ hmem hfloor

theorem mem_virtualFree {regions : List Region} {r : Region} :
    r ∈ virtualFree regions base ↔ r ∈ regions ∧ r.base ≠ base := by
  simp [virtualFree]

theorem Inv.release (hinv : Inv h) {block : Block} (hblock : block ∈ h.live) :
    Inv ⟨virtualFree h.regions (baseAddress block.ptr), h.live.erase block⟩ := by
  have hlive (b : Block) : b ∈ h.live.erase block ↔ b ≠ block ∧ b ∈ h.live := hinv.nodup.mem_erase_iff
  refine ⟨fun b hb => ?_, fun r hr => ?_, fun r hr => ?_, fun r hr r' hr' => ?_,
    fun b hb b' hb' => ?_, hinv.nodup.erase block⟩
  · obtain ⟨hne, hb⟩ := (hlive b).mp hb
    obtain ⟨hsize, heq, hmem⟩ := hinv.fits b hb
    exact ⟨hsize, heq, mem_virtualFree.mpr ⟨hmem, fun hbase => hne (hinv.sole b hb block hblock hbase)⟩⟩
  · obtain ⟨hr, hbase⟩ := mem_virtualFree.mp hr
    obtain ⟨b, hb, rfl⟩ := hinv.owned r hr
    refine ⟨b, (hlive b).mpr ⟨?_, hb⟩, rfl⟩
    rintro rfl
    exact hbase rfl
  · exact hinv.aligned r (mem_virtualFree.mp hr).1
  · exact hinv.apart r (mem_virtualFree.mp hr).1 r' (mem_virtualFree.mp hr').1
  · exact hinv.sole b ((hlive b).mp hb).2 b' ((hlive b').mp hb').2

/-- A label places a region directly behind or before a live one, of which the front one
is a multiple of the granularity. -/
def Act.touches (h : Heap) : Act → Prop
  | .alloc size base => ∃ r ∈ h.regions, r.Touches (regionAt base size) ∨ (regionAt base size).Touches r
  | .release _ => False

theorem inv_start : Inv Heap.machine.start := by
  refine ⟨nofun, nofun, nofun, nofun, nofun, List.nodup_nil⟩

theorem step_alloc (hstep : h.step (.alloc size base) = some h') :
    Requestable size ∧ Fresh h.regions (regionAt base size) ∧
      h' = ⟨regionAt base size :: h.regions, alloc base size :: h.live⟩ := by
  simp only [Heap.step] at hstep
  split at hstep
  case isTrue hok =>
    cases hstep
    exact ⟨hok.1, hok.2, rfl⟩
  case isFalse => cases hstep

theorem step_release {block : Block} (hstep : h.step (.release block) = some h') :
    block ∈ h.live ∧
      h' = ⟨virtualFree h.regions (baseAddress block.ptr), h.live.erase block⟩ := by
  simp only [Heap.step] at hstep
  split at hstep
  case isTrue hmem =>
    cases hstep
    exact ⟨hmem, rfl⟩
  case isFalse => cases hstep

theorem inv_step {a : Act} (hinv : Inv h) (hstep : h.step a = some h') : Inv h' := by
  cases a with
  | alloc size base =>
    obtain ⟨hsize, hfresh, rfl⟩ := step_alloc hstep
    exact hinv.alloc hsize hfresh
  | release block =>
    obtain ⟨hblock, rfl⟩ := step_release hstep
    exact hinv.release hblock

/-- The next label keeps all blocks guarded exactly if it places no region directly next
to a live one. -/
theorem guarded_step {a : Act} (hinv : Inv h) (hguarded : h.Guarded) (hstep : h.step a = some h') :
    h'.Guarded ↔ ¬ a.touches h := by
  have hinv' := inv_step hinv hstep
  rw [hinv'.guarded_iff_apart]
  rw [hinv.guarded_iff_apart] at hguarded
  cases a with
  | alloc size base =>
    obtain ⟨hsize, hfresh, rfl⟩ := step_alloc hstep
    constructor
    · rintro hapart ⟨r, hr, ⟨-, heq⟩ | ⟨-, heq⟩⟩
      · exact hapart r (List.mem_cons_of_mem _ hr) _ List.mem_cons_self heq.symm
      · exact hapart _ List.mem_cons_self r (List.mem_cons_of_mem _ hr) heq.symm
    · intro hfar r hr r' hr' heq
      have hlength := hinv'.dvd_length hr hr' heq
      rcases List.mem_cons.mp hr with rfl | hr
      · rcases List.mem_cons.mp hr' with rfl | hr'
        · exact absurd heq (hinv'.aligned _ List.mem_cons_self).2.ne
        · exact hfar ⟨r', hr', .inr ⟨hlength, heq.symm⟩⟩
      · rcases List.mem_cons.mp hr' with rfl | hr'
        · exact hfar ⟨r, hr, .inl ⟨hlength, heq.symm⟩⟩
        · exact hguarded r hr r' hr' heq
  | release block =>
    obtain ⟨hblock, rfl⟩ := step_release hstep
    refine iff_of_true (fun r hr r' hr' => ?_) id
    exact hguarded r (mem_virtualFree.mp hr).1 r' (mem_virtualFree.mp hr').1

theorem inv_run {as : List Act} (hrun : Heap.machine.Run Machine.Any as h) : Inv h :=
  hrun.invariant inv_start fun _ _ _ hinv _ hstep => inv_step hinv hstep

/-- Every live block is guarded in all states of a run exactly if no region is placed
directly before or behind a live one, the front one being a multiple of 64 KiB. -/
theorem guarded_iff {as : List Act} (hrun : Heap.machine.Run Machine.Any as h) :
    (Heap.machine.Always as fun _ h => h.Guarded) ↔
      Heap.machine.Each as fun _ h a => ¬ a.touches h :=
  hrun.always_iff_each (fun _ hblock => nomatch hblock) fun _ _ _ _ hrun hguarded hstep =>
    guarded_step (inv_run hrun) hguarded hstep

/-- A block whose pages are not a multiple of 64 KiB is guarded in every state. -/
theorem guarded_of_not_dvd {as : List Act} (hrun : Heap.machine.Run Machine.Any as h) {block : Block}
    (hblock : block ∈ h.live) (hpages : ¬ granularity ∣ block.region.length) :
    ¬ h.Accessible (block.ptr + block.size.toInt.toNat) := by
  have hinv := inv_run hrun
  have hmem := (hinv.fits block hblock).2.2
  rw [hinv.stop_eq hblock, hinv.accessible_stop hmem]
  rintro ⟨r, hr, heq⟩
  exact hpages (hinv.dvd_length hmem hr heq)

instance (h : Heap) : (a : Act) → Decidable (a.touches h)
  | .alloc _ _ => inferInstanceAs (Decidable (∃ r ∈ h.regions, (_ ∧ _) ∨ (_ ∧ _)))
  | .release _ => inferInstanceAs (Decidable False)

/-- Two blocks whose regions have room between them. -/
def spaced : List Act := [.alloc 65536 0x10000, .alloc 1 0x30000, .release ⟨0x10000, 65536⟩]

theorem guarded_iff_spaced : ∃ h, Heap.machine.exec Heap.machine.start spaced = some h ∧
    Heap.machine.Always spaced fun _ h => h.Guarded := by
  have hexec : (Heap.machine.exec Heap.machine.start spaced).isSome = true := by decide
  obtain ⟨h, hh⟩ := Option.isSome_iff_exists.mp hexec
  refine ⟨h, hh, (guarded_iff (Machine.run_of_exec hh)).mpr ?_⟩
  exact Machine.each_of_check (by decide)

/-- A block of 64 KiB, and a second region directly behind its own. -/
theorem adjacent_not_guarded : ∃ h,
    Heap.machine.Run Machine.Any [.alloc 65536 0x10000, .alloc 1 0x20000] h ∧
      ⟨0x10000, 65536⟩ ∈ h.live ∧ h.Accessible (0x10000 + 65536) ∧ ¬ h.Guarded := by
  let h : Heap := ⟨[⟨0x20000, 4096⟩, ⟨0x10000, 65536⟩], [⟨0x20fff, 1⟩, ⟨0x10000, 65536⟩]⟩
  have hexec : Heap.machine.exec Heap.machine.start [.alloc 65536 0x10000, .alloc 1 0x20000] =
      some h := rfl
  have hlive : ⟨0x10000, 65536⟩ ∈ h.live := by decide
  have haccessible : h.Accessible (0x10000 + 65536) :=
    ⟨⟨0x20000, 4096⟩, List.mem_cons_self, by decide, by decide⟩
  exact ⟨h, Machine.run_of_exec hexec, hlive, haccessible, fun hguarded =>
    hguarded _ hlive haccessible⟩

end CppServer.StompAllocator
