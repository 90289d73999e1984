import CppServer.Base.Allocator
import CppServer.Memory.Stomp

namespace CppServer.Memory.Stomp

open Function Base StompAllocator

instance (r : Region) (address : ℕ) : Decidable (r.Contains address) := inferInstanceAs (Decidable (_ ∧ _))

/-- The allocator as its callers know it. A step may leave anything in the pages that it commits or
gives back. -/
def allocator : Allocator Program Act Handle ℕ where
  machine := Program.machine
  live := Program.live
  size handle := handle.size.toNat
  place handle offset := handle.ptr + offset
  effect s
    | .allocate size base =>
      match s.heap.allocate size base with
      | .ok (_, ptr) => .create ⟨base, ptr, size⟩
      | .error _ => .silent
    | .release handle => .destroy handle
    | .write handle offset _ => .write handle offset
  Scratch _ a x :=
    match a with
    | .allocate size base => (regionAt base (allocSizeOf size)).Contains x
    | .release handle => handle.region.Contains x
    | .write _ _ _ => False
  decidableScratch _ a x :=
    match a with
    | .allocate size base => inferInstanceAs (Decidable ((regionAt base (allocSizeOf size)).Contains x))
    | .release handle => inferInstanceAs (Decidable (handle.region.Contains x))
    | .write _ _ _ => inferInstanceAs (Decidable False)

variable {s s' : Program} {handle handle' : Handle}

/-- The data area of a live block lies in its region. -/
theorem Inv.data_inside (hinv : Inv s) (hlive : handle ∈ s.live) {offset : ℕ}
    (hoffset : offset < handle.size.toNat) : handle.region.Contains (handle.ptr + offset) := by
  have hplaced := hinv.placed handle hlive
  have hstop := hplaced.stop
  have hheader := hplaced.header
  have hinside := hplaced.inside
  have hnat := toNat_of_nonneg (hinv.size handle hlive).1
  simp only [attachHeader] at hheader
  simp only [Region.Contains, Handle.region]
  rw [← hstop]
  have hbase : (regionAt handle.base (allocSizeOf handle.size)).base = handle.base := rfl
  omega

theorem not_contains_of_apart {r r' : Region} (hapart : r.stop ≤ r'.base ∨ r'.stop ≤ r.base) {x : ℕ}
    (hx : r.Contains x) : ¬ r'.Contains x := by
  simp only [Region.Contains] at *
  omega

theorem Inv.data_apart (hinv : Inv s) (hlive : handle ∈ s.live) (hlive' : handle' ∈ s.live)
    (hne : handle ≠ handle') {offset offset' : ℕ} (hoffset : offset < handle.size.toNat)
    (hoffset' : offset' < handle'.size.toNat) : handle.ptr + offset ≠ handle'.ptr + offset' := by
  intro heq
  apply not_contains_of_apart (hinv.apart handle hlive handle' hlive' hne) (hinv.data_inside hlive hoffset)
  rw [heq]
  exact hinv.data_inside hlive' hoffset'

/-- What a step does to the live blocks and to the regions. -/
theorem Inv.step_spec (hinv : Inv s) {a : Act} (hstep : s.step a = some s') :
    (∃ size base ptr, a = .allocate size base ∧
        Fresh s.heap.regions (regionAt base (allocSizeOf size)) ∧
        (∃ heap, s.heap.allocate size base = .ok (heap, ptr)) ∧
        s'.live = ⟨base, ptr, size⟩ :: s.live ∧
        s'.heap.regions = regionAt base (allocSizeOf size) :: s.heap.regions) ∨
      (∃ handle ∈ s.live, a = .release handle ∧ s'.live = s.live.erase handle ∧
        s'.heap.regions = StompAllocator.virtualFree s.heap.regions handle.base) ∨
      ∃ handle ∈ s.live, ∃ offset value, a = .write handle offset value ∧
        offset < handle.size.toNat ∧ s'.live = s.live ∧ s'.heap.regions = s.heap.regions := by
  cases a with
  | allocate size base =>
    obtain ⟨hsize, hfresh, hcode⟩ := Program.step_allocate hstep
    have hbase : pageSize ∣ base := hfresh.2.1
    obtain ⟨ptr, -, hok⟩ := allocate_spec (h := s.heap) hsize hbase
    rw [hok] at hcode
    rcases hcode with ⟨fault, hfault, -⟩ | ⟨heap, ptr', heq, rfl⟩
    · cases hfault
    · cases heq
      exact .inl ⟨size, base, ptr, rfl, hfresh, ⟨_, hok⟩, rfl, rfl⟩
  | release handle =>
    obtain ⟨hlive, hcode⟩ := Program.step_release hstep
    rw [release_spec (hinv.size _ hlive) (hinv.placed _ hlive) (hinv.region _ hlive)
      (hinv.header _ hlive)] at hcode
    rcases hcode with ⟨fault, hfault, -⟩ | ⟨heap, heq, rfl⟩
    · cases hfault
    · cases heq
      exact .inr (.inl ⟨handle, hlive, rfl, rfl, rfl⟩)
  | write handle offset value =>
    obtain ⟨hlive, hoffset, rfl⟩ := Program.step_write hstep
    exact .inr (.inr ⟨handle, hlive, offset, value, rfl, hoffset, rfl, rfl⟩)

theorem allocator_sound : allocator.Sound Inv where
  start := inv_start
  empty := rfl
  keep _ _ _ hinv hstep := hinv.step hstep
  changes := by
    intro s a s' hinv hstep
    rcases hinv.step_spec hstep with ⟨size, base, ptr, rfl, hfresh, ⟨heap, hok⟩, hlive', -⟩ |
      ⟨handle, hlive, rfl, hlive', -⟩ | ⟨handle, hlive, offset, value, rfl, hoffset, hlive', -⟩
    · simp only [allocator, hok, Effect.Changes, hlive']
      refine ⟨fun hmem => ?_, fun _ => List.mem_cons⟩
      have hstop := (hinv.placed _ hmem).base_lt_stop
      rcases hfresh.2.2.2 _ (hinv.region _ hmem) with hle | hle
      · exact absurd hle (not_le_of_gt hstop)
      · exact absurd hle (not_le_of_gt hstop)
    · simp only [allocator, Effect.Changes, hlive']
      exact ⟨hlive, fun _ => hinv.nodup.mem_erase_iff⟩
    · simp only [allocator, Effect.Changes, hlive']
      exact ⟨hlive, hoffset, fun _ => trivial⟩
  apart := by
    intro s hinv handle hlive handle' hlive' i hi j hj heq
    by_cases hne : handle = handle'
    · subst hne
      exact ⟨rfl, Nat.add_left_cancel heq⟩
    · exact absurd heq (hinv.data_apart hlive hlive' hne hi hj)
  scratch := by
    intro s a s' x hinv hstep hscratch handle hlive hstay i hi heq
    have hdata : handle.region.Contains x := by
      rw [heq]
      exact hinv.data_inside hlive hi
    rcases hinv.step_spec hstep with ⟨size, base, ptr, rfl, hfresh, -⟩ | ⟨handle', hlive', rfl, hleft, -⟩ |
      ⟨_, -, offset, value, rfl, -⟩
    · exact not_contains_of_apart (hfresh.2.2.2 _ (hinv.region _ hlive)) hscratch hdata
    · have hne : handle ≠ handle' := by
        have hmem : handle ∈ s.live.erase handle' := hleft ▸ hstay
        exact (hinv.nodup.mem_erase_iff.mp hmem).1
      exact not_contains_of_apart (hinv.apart _ hlive' _ hlive hne.symm) hscratch hdata
    · exact hscratch

/-- The debug build is the same store of independent objects as the pooled one. -/
theorem stomp_refines_objects {V : Type} [DecidableEq V] {bytes : ℕ → V}
    {as : List (Allocator.Act Act Handle ℕ V)} {s : Program × (ℕ → V)}
    (hrun : (allocator.stored bytes).Run Machine.Any as s) :
    (∃ o, (Objects.machine fun handle : Handle => handle.size.toNat).Run Machine.Any
        (allocator.seen bytes as) o ∧ ∀ handle, (o handle).isSome ↔ handle ∈ s.1.live) ∧
      ∀ before between handle offset v w,
        allocator.seen bytes as =
          before ++ .write handle offset v :: between ++ [.read handle offset w] →
        (∀ x, .write handle offset x ∉ between) → .destroy handle ∉ between → w = v :=
  ⟨allocator_sound.run hrun, fun _ _ _ _ _ _ hseen hwrite hdestroy =>
    allocator_sound.read_of_write hrun hseen hwrite hdestroy⟩

/-- A block is released and its page handed out again, beside one that keeps its contents. -/
def recommit {V : Type} (v w : V) : List (Allocator.Act Act Handle ℕ V) :=
  [.act (.allocate 100 0x10000) [(0x10010, w)], .act (.allocate 50 0x20000) [],
    .act (.write ⟨0x20000, 135118, 50⟩ 49 0) [(135167, v)], .act (.release ⟨0x10000, 69532, 100⟩) [],
    .act (.allocate 8160 0x10000) [(0x10010, v)], .read ⟨0x20000, 135118, 50⟩ 49 v]

theorem stomp_refines_objects_recommit : ∃ o : Objects Handle ℕ,
    (Objects.machine fun handle => handle.size.toNat).Run Machine.Any
      [.create ⟨0x10000, 69532, 100⟩, .create ⟨0x20000, 135118, 50⟩,
        .write ⟨0x20000, 135118, 50⟩ 49 5, .destroy ⟨0x10000, 69532, 100⟩,
        .create ⟨0x10000, 65568, 8160⟩, .read ⟨0x20000, 135118, 50⟩ 49 5] o ∧
      (o ⟨0x10000, 65568, 8160⟩).isSome := by
  let start : ℕ → ℕ := fun _ => 0
  have hend : ((allocator.stored start).exec (allocator.stored start).start (recommit 5 9)).map
      (fun s => s.1.live) = some [⟨0x10000, 65568, 8160⟩, ⟨0x20000, 135118, 50⟩] := by
    decide
  obtain ⟨s, hexec, hlive⟩ := Option.map_eq_some_iff.mp hend
  obtain ⟨⟨o, hrun, hobjects⟩, -⟩ := stomp_refines_objects (Machine.run_of_exec hexec)
  have hseen : allocator.seen start (recommit 5 9) =
      [.create ⟨0x10000, 69532, 100⟩, .create ⟨0x20000, 135118, 50⟩,
        .write ⟨0x20000, 135118, 50⟩ 49 5, .destroy ⟨0x10000, 69532, 100⟩,
        .create ⟨0x10000, 65568, 8160⟩, .read ⟨0x20000, 135118, 50⟩ 49 5] := by
    decide
  rw [hseen] at hrun
  refine ⟨o, hrun, (hobjects _).mpr ?_⟩
  simp [hlive]

/-- Every committed region is that of a live block. -/
def Exact (s : Program) : Prop := ∀ r ∈ s.heap.regions, ∃ handle ∈ s.live, handle.region = r

theorem Inv.exact_step (hinv : Inv s) (hexact : Exact s) {a : Act} (hstep : s.step a = some s') :
    Exact s' := by
  intro r hr
  rcases hinv.step_spec hstep with ⟨size, base, ptr, -, -, -, hlive', hregions⟩ |
    ⟨handle, hlive, -, hlive', hregions⟩ | ⟨_, -, offset, value, -, -, hlive', hregions⟩
  · rw [hregions] at hr
    rw [hlive']
    rcases List.mem_cons.mp hr with rfl | hr
    · exact ⟨_, List.mem_cons_self, rfl⟩
    · obtain ⟨handle, hlive, heq⟩ := hexact r hr
      exact ⟨handle, List.mem_cons_of_mem _ hlive, heq⟩
  · rw [hregions, mem_virtualFree] at hr
    obtain ⟨handle', hlive'', rfl⟩ := hexact r hr.1
    refine ⟨handle', ?_, rfl⟩
    rw [hlive', hinv.nodup.mem_erase_iff]
    refine ⟨?_, hlive''⟩
    rintro rfl
    exact hr.2 rfl
  · rw [hregions] at hr
    rw [hlive']
    exact hexact r hr

theorem exact_run {as : List Act} (hrun : Program.machine.Run Machine.Any as s) : Inv s ∧ Exact s := by
  apply hrun.invariant (P := fun s => Inv s ∧ Exact s)
  · exact ⟨inv_start, nofun⟩
  · exact fun s a s' h _ hstep => ⟨h.1.step hstep, h.1.exact_step h.2 hstep⟩

/-- Two regions have no byte in common. -/
def Apart (r r' : Region) : Prop := r.stop ≤ r'.base ∨ r'.stop ≤ r.base

instance (r r' : Region) : Decidable (Apart r r') := inferInstanceAs (Decidable (_ ∨ _))

/-- Pages that no `Allocate` gets stay as free as they are. -/
theorem Inv.apart_step (hinv : Inv s) {a : Act} {pages : Region} (hstep : s.step a = some s')
    (hfree : ∀ r ∈ s.heap.regions, Apart r pages)
    (hpages : ∀ size base, a = .allocate size base → Apart (regionAt base (allocSizeOf size)) pages) :
    ∀ r ∈ s'.heap.regions, Apart r pages := by
  intro r hr
  rcases hinv.step_spec hstep with ⟨size, base, ptr, heq, -, -, -, hregions⟩ |
    ⟨handle, -, -, -, hregions⟩ | ⟨_, -, offset, value, -, -, -, hregions⟩
  · rw [hregions] at hr
    rcases List.mem_cons.mp hr with rfl | hr
    · exact hpages size base heq
    · exact hfree r hr
  · rw [hregions, mem_virtualFree] at hr
    exact hfree r hr.1
  · rw [hregions] at hr
    exact hfree r hr

theorem Inv.apart_exec (hinv : Inv s) {as : List Act} {pages : Region}
    (hexec : Program.machine.exec s as = some s') (hfree : ∀ r ∈ s.heap.regions, Apart r pages)
    (hpages : ∀ size base, .allocate size base ∈ as →
      Apart (regionAt base (allocSizeOf size)) pages) :
    ∀ r ∈ s'.heap.regions, Apart r pages := by
  induction as generalizing s with
  | nil =>
    cases hexec
    exact hfree
  | cons a as ih =>
    obtain ⟨next, hstep, hexec⟩ := Option.bind_eq_some_iff.mp hexec
    have hnext := hinv.apart_step hstep hfree fun size base heq =>
      hpages size base (heq ▸ List.mem_cons_self)
    exact ih (hinv.step hstep) hexec hnext fun size base hmem =>
      hpages size base (List.mem_cons_of_mem a hmem)

/-- After `Release`, no committed region has a byte of the block's pages. -/
theorem Inv.apart_released (hinv : Inv s) (hexact : Exact s)
    (hstep : s.step (.release handle) = some s') : ∀ r ∈ s'.heap.regions, Apart r handle.region := by
  intro r hr
  rcases hinv.step_spec hstep with ⟨size, base, ptr, heq, -⟩ | ⟨handle', hlive, heq, -, hregions⟩ |
    ⟨_, -, offset, value, heq, -⟩
  · cases heq
  · cases heq
    rw [hregions, mem_virtualFree] at hr
    obtain ⟨handle', hlive', rfl⟩ := hexact r hr.1
    apply hinv.apart handle' hlive' handle hlive
    rintro rfl
    exact hr.2 rfl
  · cases heq

/-- The debug build catches every use after release. From the release of a block on, as long as
`VirtualAlloc` hands out none of its pages again, no byte of the block, its header and what lies
around them in these pages can be accessed, and a second `Release` faults. -/
theorem released_faults {as bs : List Act} {middle : Program}
    (hrun : Program.machine.Run Machine.Any as s) (hrelease : s.step (.release handle) = some middle)
    (hafter : Program.machine.exec middle bs = some s')
    (hpages : ∀ size base, .allocate size base ∈ bs →
      Apart (regionAt base (allocSizeOf size)) handle.region) :
    (∀ x, handle.region.Contains x → ¬ s'.heap.Committed x 1) ∧
      s'.heap.release handle.ptr = .error .accessViolation := by
  obtain ⟨hinv, hexact⟩ := exact_run hrun
  have hlive := (Program.step_release hrelease).1
  have hfree := (hinv.step hrelease).apart_exec hafter (hinv.apart_released hexact hrelease) hpages
  have hfault (x length : ℕ) (hlength : 0 < length) (hinside : handle.region.Contains x) :
      ¬ s'.heap.Committed x length := by
    rintro ⟨r, hr, hle, hstop⟩
    exact not_contains_of_apart (hfree r hr) ⟨hle, by omega⟩ hinside
  refine ⟨fun x hx => hfault x 1 Nat.one_pos hx, ?_⟩
  have hplaced := hinv.placed handle hlive
  have hheader := hplaced.header_inside
  have hinside := hplaced.inside
  have hbase : (regionAt handle.base (allocSizeOf handle.size)).base = handle.base := rfl
  rw [Heap.release, if_neg]
  apply hfault
  · decide
  · simp only [Region.Contains, Handle.region, offsetofAllocSize, sizeofMemoryHeader] at *
    omega

theorem released_faults_beside : ∃ s, Program.machine.exec Program.machine.start
      [.allocate 100 0x10000, .allocate 50 0x20000, .release ⟨0x10000, 69532, 100⟩,
        .write ⟨0x20000, 135118, 50⟩ 49 0] = some s ∧ s.live = [⟨0x20000, 135118, 50⟩] ∧
      ¬ s.heap.Committed 69532 1 ∧ s.heap.release 69532 = .error .accessViolation := by
  have hbefore : (Program.machine.exec Program.machine.start
      [.allocate 100 0x10000, .allocate 50 0x20000]).isSome := by
    decide
  obtain ⟨s, hs⟩ := Option.isSome_iff_exists.mp hbefore
  have hafter : (Program.machine.exec s
      [.release ⟨0x10000, 69532, 100⟩, .write ⟨0x20000, 135118, 50⟩ 49 0]).map
        (fun s => s.live) = some [⟨0x20000, 135118, 50⟩] := by
    cases hs
    decide
  obtain ⟨s', hexec, hlive⟩ := Option.map_eq_some_iff.mp hafter
  obtain ⟨middle, hrelease, hwrite⟩ := Option.bind_eq_some_iff.mp hexec
  obtain ⟨hbytes, hagain⟩ := released_faults (Machine.run_of_exec hs) hrelease hwrite
    fun size base hmem => by simp at hmem
  refine ⟨s', ?_, hlive, hbytes 69532 (by decide), hagain⟩
  have hwhole := Machine.exec_append Program.machine [.allocate 100 0x10000, .allocate 50 0x20000]
    [.release ⟨0x10000, 69532, 100⟩, .write ⟨0x20000, 135118, 50⟩ 49 0] Program.machine.start
  rw [hs, Option.bind_some, hexec] at hwhole
  exact hwhole

end CppServer.Memory.Stomp
