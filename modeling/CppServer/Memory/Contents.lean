import CppServer.Base.Allocator
import CppServer.Memory.Pooling

namespace CppServer.Memory

open Function Base

/-- The byte at `a` belongs to one of the blocks. -/
def Heap.Covers (h : Heap) (blocks : List ℕ) (a : ℕ) : Prop :=
  ∃ b ∈ blocks, b ≤ a ∧ a < b + (h.block b).capacity

instance (h : Heap) (blocks : List ℕ) (a : ℕ) : Decidable (h.Covers blocks a) :=
  inferInstanceAs (Decidable (∃ b ∈ blocks, _))

/-- The bytes that a step inside a call may change: the header that it writes or links, and for
`_aligned_malloc` and `_aligned_free` whatever is in no block that stays allocated. -/
def Pc.Scratch (h : Heap) (a : ℕ) : Pc → Prop
  | .attach _ header | .pushClear _ header | .pushList _ header =>
    header ≤ a ∧ a < header + sizeofMemoryHeader
  | .systemMalloc _ | .popMalloc _ _ => ¬ h.Covers h.allocated a
  | .systemFree header => ¬ h.Covers (h.allocated.erase header) a
  | _ => False

instance (h : Heap) (a : ℕ) : (pc : Pc) → Decidable (pc.Scratch h a)
  | .attach _ _ | .pushClear _ _ | .pushList _ _ => inferInstanceAs (Decidable (_ ∧ _))
  | .systemMalloc _ | .popMalloc _ _ | .systemFree _ => inferInstanceAs (Decidable (¬ _))
  | .idle | .allocate _ | .popList _ _ | .popCheck _ _ _ | .popReserve _ _ _ | .popUse _ _ _
  | .release _ | .pushUse _ | .pushReserve _ => inferInstanceAs (Decidable False)

/-- The allocator as its callers know it: a block comes when `Allocate` returns and goes when `Release`
is called. -/
def allocator (T : Type) [DecidableEq T] : Allocator (Threads T) (Act T) Handle ℕ where
  machine := Threads.machine T
  live := Threads.live
  size handle := handle.size.toNat
  place handle offset := handle.ptr + offset
  effect s
    | .allocate _ _ => .silent
    | .release _ handle => .destroy handle
    | .run t _ =>
      match s.pc t with
      | .attach size header => .create ⟨header, size⟩
      | _ => .silent
    | .write handle offset _ => .write handle offset
  Scratch s a x :=
    match a with
    | .run t _ => (s.pc t).Scratch s.heap x
    | _ => False
  decidableScratch _ a _ :=
    match a with
    | .run _ _ => inferInstance
    | .allocate _ _ | .release _ _ | .write _ _ _ => inferInstanceAs (Decidable False)

section Layout

variable {T : Type} {owner : ℕ → Option (Owner T)} {s : Threads T} {handle : Handle} {t : T}

theorem Inv.live_allocated (hinv : Inv owner s) (hlive : handle ∈ s.live) :
    handle.header ∈ s.heap.allocated :=
  hinv.mem_of_owns (o := .caller) (List.mem_map_of_mem hlive)

/-- The data area of a live block lies in the block, after the header. -/
theorem Inv.data_inside (hinv : Inv owner s) (hlive : handle ∈ s.live) {offset : ℕ}
    (hoffset : offset < handle.size.toNat) :
    handle.header + sizeofMemoryHeader ≤ handle.ptr + offset ∧
      handle.ptr + offset < handle.header + (s.heap.block handle.header).capacity := by
  have hroom := (hinv.live handle hlive).1.room
  simp only [Handle.ptr, attachHeader]
  omega

theorem Inv.handle_eq (hinv : Inv owner s) {handle' : Handle} (hlive : handle ∈ s.live)
    (hlive' : handle' ∈ s.live) (hheader : handle.header = handle'.header) : handle = handle' :=
  List.inj_on_of_nodup_map hinv.handles hlive hlive' hheader

/-- The data areas of two live blocks have no byte in common. -/
theorem Inv.data_apart (hinv : Inv owner s) {handle' : Handle} (hlive : handle ∈ s.live)
    (hlive' : handle' ∈ s.live) (hne : handle ≠ handle') {offset offset' : ℕ}
    (hoffset : offset < handle.size.toNat) (hoffset' : offset' < handle'.size.toNat) :
    handle.ptr + offset ≠ handle'.ptr + offset' := by
  have hinside := hinv.data_inside hlive hoffset
  have hinside' := hinv.data_inside hlive' hoffset'
  have hapart := hinv.apart.apart _ (hinv.live_allocated hlive) _ (hinv.live_allocated hlive')
    fun heq => hne (hinv.handle_eq hlive hlive' heq)
  simp only [sizeofMemoryHeader] at hinside hinside'
  omega

/-- The block of a call in flight is none of the callers'. -/
theorem Inv.header_apart (hinv : Inv owner s) {header : ℕ} (hblock : (s.pc t).block = some header)
    (hlive : handle ∈ s.live) : handle.header ≠ header ∧
      (header + sizeofMemoryHeader ≤ handle.header ∨
        handle.header + (s.heap.block handle.header).capacity ≤ header) := by
  have howns : Owns s (.call t) header := hblock
  have hne : handle.header ≠ header := by
    rintro rfl
    exact hinv.not_live howns nofun (List.mem_map_of_mem hlive)
  have hmem := hinv.mem_of_owns howns
  have hplaced := (hinv.apart.placed header hmem).2.2
  have hapart := hinv.apart.apart header hmem _ (hinv.live_allocated hlive) hne.symm
  refine ⟨hne, hapart.imp_left fun hle => ?_⟩
  omega

/-- No step inside a call changes a byte of a caller's data. -/
theorem Inv.scratch_apart (hinv : Inv owner s) (hlive : handle ∈ s.live) {offset a : ℕ}
    (hoffset : offset < handle.size.toNat) (hscratch : (s.pc t).Scratch s.heap a) :
    a ≠ handle.ptr + offset := by
  have hinside := hinv.data_inside hlive hoffset
  rintro rfl
  have hcovers {blocks : List ℕ} (hmem : handle.header ∈ blocks) :
      s.heap.Covers blocks (handle.ptr + offset) :=
    ⟨_, hmem, by omega, hinside.2⟩
  have hheader (header : ℕ) (hblock : (s.pc t).block = some header)
      (hwithin : header ≤ handle.ptr + offset ∧ handle.ptr + offset < header + sizeofMemoryHeader) :
      False := by
    rcases (hinv.header_apart hblock hlive).2 with hbefore | hafter
    · omega
    · omega
  cases hpc : s.pc t with
  | systemMalloc size =>
    rw [hpc] at hscratch
    exact hscratch (hcovers (hinv.live_allocated hlive))
  | popMalloc size p =>
    rw [hpc] at hscratch
    exact hscratch (hcovers (hinv.live_allocated hlive))
  | systemFree header =>
    have hne := (hinv.header_apart (congrArg Pc.block hpc) hlive).1
    rw [hpc] at hscratch
    exact hscratch (hcovers ((List.mem_erase_of_ne hne).mpr (hinv.live_allocated hlive)))
  | attach size header =>
    rw [hpc] at hscratch
    exact hheader header (congrArg Pc.block hpc) hscratch
  | pushClear p header =>
    rw [hpc] at hscratch
    exact hheader header (congrArg Pc.block hpc) hscratch
  | pushList p header =>
    rw [hpc] at hscratch
    exact hheader header (congrArg Pc.block hpc) hscratch
  | _ =>
    rw [hpc] at hscratch
    exact hscratch

end Layout

variable {T V : Type} [DecidableEq T] [DecidableEq V]

/-- A step inside a call is silent, or `Allocate` returns a block that is new. -/
theorem Inv.changes_run {owner : ℕ → Option (Owner T)} {s s' : Threads T} (hinv : Inv owner s) {t : T}
    {base : ℕ} (hstep : s.step (.run t base) = some s') :
    ((allocator T).effect s (.run t base)).Changes (allocator T).size s.live s'.live := by
  obtain ⟨hfresh, hcode⟩ := Threads.step_run hstep
  obtain ⟨heap, pc, owner', hok, -⟩ := hinv.step_run hfresh
  have hlive : s'.live = (s.pc t).returned s.live := by
    rcases hcode with ⟨fault, hfault, -⟩ | ⟨heap', pc', -, rfl⟩
    · rw [hok] at hfault
      cases hfault
    · rfl
  rw [hlive]
  cases hpc : s.pc t with
  | attach size header =>
    simp only [allocator, hpc]
    refine ⟨fun hmem => ?_, fun handle => List.mem_cons⟩
    exact (hinv.header_apart (congrArg Pc.block hpc) hmem).1 rfl
  | _ =>
    simp only [allocator, hpc]
    exact fun _ => Iff.rfl

theorem allocator_sound : (allocator T).Sound fun s => ∃ owner, Inv owner s where
  start := ⟨_, inv_start⟩
  empty := rfl
  keep _ _ _ hinv hstep := Inv.step hinv hstep
  changes := by
    rintro s a s' ⟨owner, hinv⟩ hstep
    cases a with
    | allocate t size =>
      obtain ⟨-, -, rfl⟩ := Threads.step_allocate hstep
      exact fun _ => Iff.rfl
    | release t handle =>
      obtain ⟨-, hlive, rfl⟩ := Threads.step_release hstep
      exact ⟨hlive, fun _ => hinv.handles.of_map.mem_erase_iff⟩
    | run t base => exact hinv.changes_run hstep
    | write handle offset value =>
      obtain ⟨hlive, hoffset, rfl⟩ := Threads.step_write hstep
      exact ⟨hlive, hoffset, fun _ => Iff.rfl⟩
  apart := by
    rintro s ⟨owner, hinv⟩ handle hlive handle' hlive' i hi j hj heq
    by_cases hne : handle = handle'
    · subst hne
      exact ⟨rfl, Nat.add_left_cancel heq⟩
    · exact absurd heq (hinv.data_apart hlive hlive' hne hi hj)
  scratch := by
    rintro s a s' x ⟨owner, hinv⟩ - hscratch handle hlive - i hi
    cases a with
    | run t base => exact hinv.scratch_apart hlive hi hscratch
    | _ => exact absurd hscratch id

/-- The pooled memory manager is a store of independent objects. Whatever the threads, the schedule
and the reuse of blocks, what the callers see is a run of such a store with the live blocks as its
objects; so a read returns what was last written there, whatever the calls in between write into
headers, links and fresh memory. -/
theorem refines_objects {bytes : ℕ → V} {as : List (Allocator.Act (Act T) Handle ℕ V)}
    {s : Threads T × (ℕ → V)} (hrun : ((allocator T).stored bytes).Run Machine.Any as s) :
    (∃ o, (Objects.machine fun handle : Handle => handle.size.toNat).Run Machine.Any
        ((allocator T).seen bytes as) o ∧
        ∀ handle, (o handle).isSome ↔ handle ∈ s.1.live) ∧
      ∀ before between handle offset v w,
        (allocator T).seen bytes as =
          before ++ .write handle offset v :: between ++ [.read handle offset w] →
        (∀ x, .write handle offset x ∉ between) → .destroy handle ∉ between → w = v :=
  ⟨allocator_sound.run hrun, fun _ _ _ _ _ _ hseen hwrite hdestroy =>
    allocator_sound.read_of_write hrun hseen hwrite hdestroy⟩

/-- A block is released and reused by another thread, beside one that keeps its contents. -/
def reuse (t u : T) (v w : V) : List (Allocator.Act (Act T) Handle ℕ V) :=
  [.act (.allocate t 8) [], .act (.run t 0) [], .act (.run t 0) [], .act (.run t 64) [(70, w)],
    .act (.run t 0) [], .act (.run t 0) [(80, w)], .act (.write ⟨64, 8⟩ 3 0) [(99, v)],
    .act (.allocate u 8) [], .act (.run u 0) [], .act (.run u 0) [], .act (.run u 128) [(170, w)],
    .act (.run u 0) [], .act (.run u 0) [(144, w)], .act (.write ⟨128, 8⟩ 0 0) [(160, w)],
    .act (.release u ⟨128, 8⟩) [], .act (.run u 0) [], .act (.run u 0) [(144, v)],
    .act (.run u 0) [(128, w)], .act (.run u 0) [], .act (.run u 0) [], .act (.allocate t 4) [],
    .act (.run t 0) [], .act (.run t 0) [], .act (.run t 0) [], .act (.run t 0) [],
    .act (.run t 0) [], .act (.run t 0) [(144, w)], .read ⟨64, 8⟩ 3 v]

theorem refines_objects_reuse : ∃ o : Objects Handle ℕ,
    (Objects.machine fun handle => handle.size.toNat).Run Machine.Any
      [.create ⟨64, 8⟩, .write ⟨64, 8⟩ 3 5, .create ⟨128, 8⟩, .write ⟨128, 8⟩ 0 9, .destroy ⟨128, 8⟩,
        .create ⟨128, 4⟩, .read ⟨64, 8⟩ 3 5] o ∧
      (o ⟨64, 8⟩).isSome ∧ (o ⟨128, 4⟩).isSome := by
  let start : ℕ → ℕ := fun _ => 0
  have hend : (((allocator Bool).stored start).exec ((allocator Bool).stored start).start
      (reuse false true 5 9)).map (fun s => s.1.live) = some [⟨128, 4⟩, ⟨64, 8⟩] := by
    decide +kernel
  obtain ⟨s, hexec, hlive⟩ := Option.map_eq_some_iff.mp hend
  obtain ⟨⟨o, hrun, hobjects⟩, -⟩ := refines_objects (Machine.run_of_exec hexec)
  have hseen : (allocator Bool).seen start (reuse false true 5 9) =
      [.create ⟨64, 8⟩, .write ⟨64, 8⟩ 3 5, .create ⟨128, 8⟩, .write ⟨128, 8⟩ 0 9, .destroy ⟨128, 8⟩,
        .create ⟨128, 4⟩, .read ⟨64, 8⟩ 3 5] := by
    decide +kernel
  rw [hseen] at hrun
  refine ⟨o, hrun, (hobjects _).mpr ?_, (hobjects _).mpr ?_⟩
  · simp [hlive]
  · simp [hlive]

end CppServer.Memory
