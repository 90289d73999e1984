import CppServer.Memory.Ownership

namespace CppServer.Memory

open Function Base

variable {T : Type} {owner : ℕ → Option (Owner T)} {s : Threads T} {t : T}

/-- A caller's write inside its data area changes no header. -/
theorem Inv.block_write (hinv : Inv owner s) {handle : Handle} (hlive : handle ∈ s.live) {offset : ℕ}
    (hoffset : offset < handle.size.toNat) (value : BitVec 32) {a : ℕ}
    (hallocated : a ∈ s.heap.allocated) :
    (s.heap.write (handle.ptr + offset) value).block a = s.heap.block a := by
  have hmem : handle.header ∈ s.heap.allocated :=
    hinv.mem_of_owns (o := .caller) (List.mem_map_of_mem hlive)
  have hroom := (hinv.live handle hlive).1.room
  have hcapacity := (hinv.apart.placed a hallocated).2.2
  simp only [sizeofMemoryHeader] at hroom hcapacity
  apply if_neg
  simp only [Handle.ptr, attachHeader, sizeofMemoryHeader]
  by_cases heq : a = handle.header
  · omega
  · have hapart := hinv.apart.apart a hallocated handle.header hmem heq
    omega

theorem Inv.written (hinv : Inv owner s) {handle : Handle} (hlive : handle ∈ s.live) {offset : ℕ}
    (hoffset : offset < handle.size.toNat) (value : BitVec 32) :
    Inv owner { s with heap := s.heap.write (handle.ptr + offset) value } := by
  have hblock {a : ℕ} (hmem : a ∈ s.heap.allocated) := hinv.block_write hlive hoffset value hmem
  refine ⟨hinv.safe, ?_, hinv.allocated, hinv.apart.congr rfl fun a ha => by rw [hblock ha],
    hinv.handles, hinv.lists, ?_, ?_, ?_⟩
  · intro o a
    rw [← hinv.owns o a]
    cases o with
    | caller => exact Iff.rfl
    | call u => exact Iff.rfl
    | free p => exact Iff.rfl
  · intro other hmem
    rw [hblock (hinv.mem_of_owns (o := .caller) (List.mem_map_of_mem hmem))]
    exact hinv.live other hmem
  · intro p a hmem
    rw [hblock (hinv.mem_of_owns (o := .free p) hmem)]
    exact hinv.free p a hmem
  · exact fun u => (hinv.suits u).congr fun a hpc => hblock (hinv.mem_of_owns (o := .call u) hpc)

variable [DecidableEq T]

theorem inv_start : Inv (fun _ => none) (Threads.machine T).start := by
  refine ⟨rfl, ?_, ?_, ⟨List.nodup_nil, ?_, ?_⟩, List.nodup_nil, fun _ => List.nodup_nil, ?_, ?_,
    fun _ => trivial⟩
  · intro o a
    refine ⟨fun h => ?_, fun h => by cases h⟩
    cases o with
    | caller => exact absurd h List.not_mem_nil
    | call t => cases h
    | free p => exact absurd h List.not_mem_nil
  · intro a
    refine ⟨fun h => absurd h List.not_mem_nil, ?_⟩
    rintro ⟨o, ho⟩
    cases ho
  · exact fun a ha => absurd ha List.not_mem_nil
  · exact fun a ha => absurd ha List.not_mem_nil
  · exact fun handle hmem => absurd hmem List.not_mem_nil
  · exact fun p a ha => absurd ha List.not_mem_nil

theorem Inv.calledAllocate (hinv : Inv owner s) {size : BitVec 32} (hidle : s.pc t = .idle)
    (hsize : Requestable size) : Inv owner { s with pc := update s.pc t (.allocate size) } := by
  have hpc : (Pc.allocate size).block = (s.pc t).block := by rw [hidle]; rfl
  exact hinv.moved s.heap _ rfl rfl rfl hpc hsize

/-- A release takes the block out of the callers' hands. -/
theorem Inv.calledRelease (hinv : Inv owner s) {handle : Handle} (hidle : s.pc t = .idle)
    (hlive : handle ∈ s.live) :
    Inv (update owner handle.header (some (.call t)))
      { s with pc := update s.pc t (.release handle.ptr), live := s.live.erase handle } := by
  have hheader : detachHeader handle.ptr = handle.header := detachHeader_attachHeader _
  have hown : Owns s .caller handle.header := List.mem_map_of_mem hlive
  have hperm := (List.perm_cons_erase hlive).map Handle.header
  have hnodup := hperm.nodup_iff.mp hinv.handles
  rw [List.map_cons, List.nodup_cons] at hnodup
  apply hinv.transfer s.heap _ _ (.call t) hown (fun _ _ => Owner.call_ne_caller.symm)
    (fun _ hu => Owner.call_ne_call hu) rfl (fun _ => rfl) (fun _ _ => rfl)
  · intro b hb
    rw [hidle] at hb
    cases hb
  · intro b hb
    rw [← Option.some.inj hb, hheader]
  · intro other hne
    rw [List.mem_erase_of_ne]
    rintro rfl
    exact hne rfl
  · exact fun _ _ _ => Iff.rfl
  · exact ⟨fun h => absurd h hnodup.1, fun h => absurd h Owner.call_ne_caller⟩
  · exact ⟨fun _ => rfl, fun _ => congrArg some hheader⟩
  · exact fun p => ⟨fun h => absurd h (hinv.not_free hown Owner.caller_ne_free),
      fun h => absurd h Owner.call_ne_free⟩
  · exact hnodup.2
  · exact hinv.lists
  · intro other hmem heq
    exact heq ▸ hinv.live other (List.mem_of_mem_erase hmem)
  · exact fun p hmem => absurd hmem (hinv.not_free hown Owner.caller_ne_free)
  · refine ⟨handle.size, ?_⟩
    rw [hheader]
    exact hinv.live handle hlive

/-- `InterlockedPopEntrySList` on a list that is not empty. -/
theorem Inv.popped (hinv : Inv owner s) {size : BitVec 32} {p memory : ℕ} {rest : List ℕ}
    (hpc : s.pc t = .popList size p) (hlist : s.heap.header p = memory :: rest) :
    Inv (update owner memory (some (.call t)))
      { s with
        heap := s.heap.setHeader p rest
        pc := update s.pc t (.popCheck size p memory) } := by
  have hown : Owns s (.free p) memory := by
    simp only [Owns, hlist]
    exact List.mem_cons_self
  have hnodup := hinv.lists p
  rw [hlist, List.nodup_cons] at hnodup
  have hsuits := hinv.suits t
  rw [hpc] at hsuits
  have hout (q : ℕ) : memory ∉ (s.heap.setHeader p rest).header q := by
    simp only [Heap.setHeader]
    by_cases hq : q = p
    · rw [hq, update_self]
      exact hnodup.1
    · rw [update_of_ne hq]
      exact hinv.not_free hown fun h => hq (Owner.free.inj h).symm
  apply hinv.transfer (s.heap.setHeader p rest) _ s.live (.call t) hown
    (fun _ _ => Owner.call_ne_free.symm) (fun _ hu => Owner.call_ne_call hu) rfl (fun _ => rfl) (fun _ _ => rfl)
  · intro b hb
    rw [hpc] at hb
    cases hb
  · intro b hb
    exact (Option.some.inj hb).symm
  · exact fun _ _ => Iff.rfl
  · intro q b hne
    simp only [Heap.setHeader]
    by_cases hq : q = p
    · rw [hq, update_self, hlist, List.mem_cons, or_iff_right hne]
    · rw [update_of_ne hq]
  · exact ⟨fun h => absurd h (hinv.not_live hown Owner.caller_ne_free.symm),
      fun h => absurd h Owner.call_ne_caller⟩
  · exact ⟨fun _ => rfl, fun _ => rfl⟩
  · exact fun q => ⟨fun h => absurd h (hout q), fun h => absurd h Owner.call_ne_free⟩
  · exact hinv.handles
  · apply (forall_update_iff s.heap.header fun _ list => list.Nodup).mpr
    exact ⟨hnodup.2, fun q _ => hinv.lists q⟩
  · exact fun handle hmem heq =>
      absurd (List.mem_map.mpr ⟨handle, hmem, heq⟩) (hinv.not_live hown Owner.caller_ne_free.symm)
  · exact fun q hmem => absurd hmem (hout q)
  · exact ⟨hsuits, hinv.free p memory hown⟩

/-- The call clears the mark of the block in its hands. -/
theorem Inv.cleared (hinv : Inv owner s) {p header : ℕ} (hpc : s.pc t = .pushClear p header) :
    Inv (update owner header (some (.call t)))
      { s with
        heap := s.heap.setAllocSize header 0
        pc := update s.pc t (.pushList p header) } := by
  have hown : Owns s (.call t) header := by
    simp only [Owns, hpc]
    rfl
  have hsuits := hinv.suits t
  rw [hpc] at hsuits
  apply hinv.transfer (s.heap.setAllocSize header 0) _ s.live (.call t) hown
    (fun _ hu => Owner.call_ne_call hu) (fun _ hu => Owner.call_ne_call hu) rfl
    (s.heap.capacity_setAllocSize header 0) (fun b hb => update_of_ne hb _ _)
  · intro b hb
    rw [hpc] at hb
    exact (Option.some.inj hb).symm
  · intro b hb
    exact (Option.some.inj hb).symm
  · exact fun _ _ => Iff.rfl
  · exact fun _ _ _ => Iff.rfl
  · exact ⟨fun h => absurd h (hinv.not_live hown Owner.call_ne_caller),
      fun h => absurd h Owner.call_ne_caller⟩
  · exact ⟨fun _ => rfl, fun _ => rfl⟩
  · exact fun q => ⟨fun h => absurd h (hinv.not_free hown Owner.call_ne_free),
      fun h => absurd h Owner.call_ne_free⟩
  · exact hinv.handles
  · exact hinv.lists
  · exact fun handle hmem heq =>
      absurd (List.mem_map.mpr ⟨handle, hmem, heq⟩) (hinv.not_live hown Owner.call_ne_caller)
  · exact fun q hmem => absurd hmem (hinv.not_free hown Owner.call_ne_free)
  · simp only [Pc.Suits, Stored, Pooled, Heap.setAllocSize, update_self]
    exact ⟨hsuits, trivial⟩

/-- `InterlockedPushEntrySList`. -/
theorem Inv.pushed (hinv : Inv owner s) {p header : ℕ} (hpc : s.pc t = .pushList p header) :
    Inv (update owner header (some (.free p)))
      { s with
        heap := s.heap.setHeader p (header :: s.heap.header p)
        pc := update s.pc t (.pushUse p) } := by
  have hown : Owns s (.call t) header := by
    simp only [Owns, hpc]
    rfl
  have hsuits := hinv.suits t
  rw [hpc] at hsuits
  have hlist (q : ℕ) : header ∈ update s.heap.header p (header :: s.heap.header p) q ↔ q = p := by
    by_cases hq : q = p
    · rw [hq, update_self]
      exact ⟨fun _ => rfl, fun _ => List.mem_cons_self⟩
    · rw [update_of_ne hq]
      exact ⟨fun h => absurd h (hinv.not_free hown Owner.call_ne_free), fun h => absurd h hq⟩
  apply hinv.transfer (s.heap.setHeader p (header :: s.heap.header p)) _ s.live (.free p) hown
    (fun _ hu => Owner.call_ne_call hu) (fun _ _ => Owner.call_ne_free.symm) rfl
    (fun _ => rfl) (fun _ _ => rfl)
  · intro b hb
    rw [hpc] at hb
    exact (Option.some.inj hb).symm
  · intro b hb
    cases hb
  · exact fun _ _ => Iff.rfl
  · intro q b hne
    simp only [Heap.setHeader]
    by_cases hq : q = p
    · rw [hq, update_self, List.mem_cons, or_iff_right hne]
    · rw [update_of_ne hq]
  · exact ⟨fun h => absurd h (hinv.not_live hown Owner.call_ne_caller),
      fun h => absurd h Owner.caller_ne_free.symm⟩
  · exact ⟨fun h => absurd h (Option.some_ne_none header).symm,
      fun h => absurd h Owner.call_ne_free.symm⟩
  · intro q
    rw [Owner.free.injEq]
    exact (hlist q).trans eq_comm
  · exact hinv.handles
  · apply (forall_update_iff s.heap.header fun _ list => list.Nodup).mpr
    exact ⟨List.nodup_cons.mpr ⟨hinv.not_free hown Owner.call_ne_free, hinv.lists p⟩,
      fun q _ => hinv.lists q⟩
  · exact fun handle hmem heq =>
      absurd (List.mem_map.mpr ⟨handle, hmem, heq⟩) (hinv.not_live hown Owner.call_ne_caller)
  · intro q hmem
    obtain rfl := (hlist q).mp hmem
    exact hsuits
  · trivial

/-- `AttachHeader` writes the header and gives the block to the caller. -/
theorem Inv.attached (hinv : Inv owner s) {size : BitVec 32} {header : ℕ}
    (hpc : s.pc t = .attach size header) :
    header ≠ 0 ∧ Inv (update owner header (some .caller))
      { s with
        heap := s.heap.setAllocSize header (allocSizeOf size)
        pc := update s.pc t .idle
        live := ⟨header, size⟩ :: s.live } := by
  have hown : Owns s (.call t) header := by
    simp only [Owns, hpc]
    rfl
  have hsuits := hinv.suits t
  rw [hpc] at hsuits
  have hserved : Served ((s.heap.setAllocSize header (allocSizeOf size)).block header) size := by
    simp only [Served, Fits, Heap.setAllocSize, update_self]
    exact ⟨hsuits, trivial⟩
  have hout := hinv.not_live hown Owner.call_ne_caller
  refine ⟨(hinv.apart.placed header (hinv.mem_of_owns hown)).1, ?_⟩
  apply hinv.transfer (s.heap.setAllocSize header (allocSizeOf size)) _ (⟨header, size⟩ :: s.live)
    .caller hown (fun _ hu => Owner.call_ne_call hu) (fun _ _ => Owner.call_ne_caller.symm)
    rfl (s.heap.capacity_setAllocSize header _) (fun b hb => update_of_ne hb _ _)
  · intro b hb
    rw [hpc] at hb
    exact (Option.some.inj hb).symm
  · intro b hb
    cases hb
  · intro handle hne
    rw [List.mem_cons, or_iff_right]
    rintro rfl
    exact hne rfl
  · exact fun _ _ _ => Iff.rfl
  · exact ⟨fun _ => rfl, fun _ => List.mem_cons_self⟩
  · exact ⟨fun h => absurd h (Option.some_ne_none header).symm,
      fun h => absurd h Owner.call_ne_caller.symm⟩
  · exact fun q => ⟨fun h => absurd h (hinv.not_free hown Owner.call_ne_free),
      fun h => absurd h Owner.caller_ne_free⟩
  · exact List.nodup_cons.mpr ⟨hout, hinv.handles⟩
  · exact hinv.lists
  · intro handle hmem heq
    rcases List.mem_cons.mp hmem with rfl | hmem
    · exact hserved
    · exact absurd (List.mem_map.mpr ⟨handle, hmem, heq⟩) hout
  · exact fun q hmem => absurd hmem (hinv.not_free hown Owner.call_ne_free)
  · trivial

end CppServer.Memory
