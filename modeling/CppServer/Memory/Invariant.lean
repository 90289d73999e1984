import CppServer.Memory.Calls

namespace CppServer.Memory

open Function Base

variable {T : Type} [DecidableEq T] {owner : ℕ → Option (Owner T)} {s : Threads T} {t : T}

/-- At the beginning of `Allocate` the size has a route. -/
theorem Inv.entered (hinv : Inv owner s) (base : ℕ) {size : BitVec 32} (hpc : s.pc t = .allocate size) :
    ∃ pc, Memory.step base s.heap (.allocate size) = .ok (s.heap, pc) ∧
      Inv owner { s with pc := update s.pc t pc } := by
  have hsuits := hinv.suits t
  rw [hpc] at hsuits
  obtain ⟨r, hroute⟩ := Requestable.exists_route hsuits
  have hblock : Pc.block (.allocate size) = (s.pc t).block := by rw [hpc]
  simp only [Memory.step, hroute]
  cases r with
  | system => exact ⟨_, rfl, hinv.moved s.heap (.systemMalloc size) rfl rfl rfl hblock ⟨hsuits, hroute⟩⟩
  | pool p => exact ⟨_, rfl, hinv.moved s.heap (.popList size p) rfl rfl rfl hblock ⟨hsuits, hroute⟩⟩

/-- At the beginning of `Release` the header holds the size that `Allocate` put
there, so the block goes back to where it came from. -/
theorem Inv.left (hinv : Inv owner s) (base : ℕ) {ptr : ℕ} (hpc : s.pc t = .release ptr) :
    ∃ pc, Memory.step base s.heap (.release ptr) = .ok (s.heap, pc) ∧
      Inv owner { s with pc := update s.pc t pc } := by
  have hsuits := hinv.suits t
  rw [hpc] at hsuits
  obtain ⟨size, ⟨hsize, hfits⟩, hmark⟩ := hsuits
  have hpositive : 0 < (allocSizeOf size).toInt := by
    have hpos := hsize.1
    rw [hsize.toInt_allocSizeOf, sizeofMemoryHeader]
    omega
  have hblock : Pc.block (.release ptr) = (s.pc t).block := by rw [hpc]
  simp only [Memory.step, hmark, if_pos hpositive]
  cases hcreator : (s.heap.block (detachHeader ptr)).creator with
  | none =>
    rw [hcreator] at hfits
    rw [hfits.1]
    exact ⟨_, rfl, hinv.moved s.heap (.systemFree _) rfl rfl rfl hblock hcreator⟩
  | some p =>
    rw [hcreator] at hfits
    rw [hfits.1]
    exact ⟨_, rfl, hinv.moved s.heap (.pushClear p _) rfl rfl rfl hblock ⟨hcreator, hfits.2⟩⟩

/-- The step lemma: no step of a call fails, and each keeps the invariant. -/
theorem Inv.step_run (hinv : Inv owner s) {base : ℕ}
    (hfresh : ∀ n, (s.pc t).request = some n → Fresh s.heap base n) :
    ∃ heap pc owner', Memory.step base s.heap (s.pc t) = .ok (heap, pc) ∧
      Inv owner' { s with heap, pc := update s.pc t pc, live := (s.pc t).returned s.live } := by
  have hsuits := hinv.suits t
  cases hpc : s.pc t with
  | idle =>
    have hblock : Pc.block .idle = (s.pc t).block := by rw [hpc]
    exact ⟨_, _, owner, rfl, hinv.moved s.heap .idle rfl rfl rfl hblock trivial⟩
  | allocate size =>
    obtain ⟨pc, hcode, hinv'⟩ := hinv.entered base hpc
    exact ⟨_, _, owner, hcode, hinv'⟩
  | systemMalloc size =>
    rw [hpc] at hsuits hfresh
    have hroom := hinv.room_request (congrArg Pc.request hpc)
    refine ⟨_, _, _, rfl, hinv.malloced (hfresh _ rfl) hroom (by rw [hpc]; rfl) rfl ?_⟩
    rw [Pc.Suits, (hfresh _ rfl).block_malloc]
    exact ⟨hsuits.1, hsuits.2, rfl⟩
  | popList size p =>
    rw [hpc] at hsuits
    cases hlist : s.heap.header p with
    | nil =>
      refine ⟨s.heap, .popMalloc size p, owner, by simp only [Memory.step, hlist], ?_⟩
      exact hinv.moved s.heap _ rfl rfl rfl (by rw [hpc]; rfl) hsuits
    | cons memory rest =>
      refine ⟨_, .popCheck size p memory, _, ?_, hinv.popped hpc hlist⟩
      simp only [Memory.step, hlist]
  | popMalloc size p =>
    rw [hpc] at hsuits hfresh
    have hroom := hinv.room_request (congrArg Pc.request hpc)
    refine ⟨_, _, _, rfl, hinv.malloced (hfresh _ rfl) hroom (by rw [hpc]; rfl) rfl ?_⟩
    rw [Pc.Suits, (hfresh _ rfl).block_malloc]
    exact ⟨hsuits, rfl, rfl⟩
  | popCheck size p memory =>
    rw [hpc] at hsuits
    refine ⟨s.heap, .popReserve size p memory, owner, if_pos hsuits.2.2, ?_⟩
    exact hinv.moved s.heap _ rfl rfl rfl (by rw [hpc]; rfl) ⟨hsuits.1, hsuits.2.1⟩
  | popReserve size p memory =>
    rw [hpc] at hsuits
    exact ⟨_, _, owner, rfl, hinv.moved _ (.popUse size p memory) rfl rfl rfl (by rw [hpc]; rfl) hsuits⟩
  | popUse size p memory =>
    rw [hpc] at hsuits
    obtain ⟨⟨hsize, hroute⟩, hcreator, hcapacity⟩ := hsuits
    refine ⟨_, _, owner, rfl, hinv.moved _ (.attach size memory) rfl rfl rfl (by rw [hpc]; rfl) ?_⟩
    refine ⟨hsize, ?_⟩
    rw [hcreator]
    exact ⟨hroute, hcapacity⟩
  | attach size header =>
    obtain ⟨hnull, hinv'⟩ := hinv.attached hpc
    exact ⟨_, _, _, if_neg hnull, hinv'⟩
  | release ptr =>
    obtain ⟨pc, hcode, hinv'⟩ := hinv.left base hpc
    exact ⟨_, _, owner, hcode, hinv'⟩
  | pushClear p header => exact ⟨_, _, _, rfl, hinv.cleared hpc⟩
  | pushList p header => exact ⟨_, _, _, rfl, hinv.pushed hpc⟩
  | pushUse p =>
    have hblock : Pc.block (.pushReserve p) = (s.pc t).block := by rw [hpc]; rfl
    exact ⟨_, _, owner, rfl, hinv.moved (s.heap.addUse p (-1)) _ rfl rfl rfl hblock trivial⟩
  | pushReserve p =>
    have hblock : Pc.block .idle = (s.pc t).block := by rw [hpc]; rfl
    exact ⟨_, _, owner, rfl, hinv.moved (s.heap.addReserve p 1) _ rfl rfl rfl hblock trivial⟩
  | systemFree header => exact ⟨_, _, _, rfl, hinv.freed hpc⟩

/-- Every step keeps the invariant, for some assignment of owners. -/
theorem Inv.step {s' : Threads T} {a : Act T} (hinv : ∃ owner, Inv owner s)
    (hstep : Threads.step s a = some s') : ∃ owner, Inv owner s' := by
  obtain ⟨owner, hinv⟩ := hinv
  cases a with
  | allocate t size =>
    obtain ⟨hidle, hsize, rfl⟩ := Threads.step_allocate hstep
    exact ⟨_, hinv.calledAllocate hidle hsize⟩
  | release t handle =>
    obtain ⟨hidle, hlive, rfl⟩ := Threads.step_release hstep
    exact ⟨_, hinv.calledRelease hidle hlive⟩
  | run t base =>
    obtain ⟨hfresh, hstep⟩ := Threads.step_run hstep
    obtain ⟨heap, pc, owner', hcode, hinv'⟩ := hinv.step_run hfresh
    rcases hstep with ⟨fault, hfault, _⟩ | ⟨heap', pc', hcode', rfl⟩
    · rw [hcode] at hfault
      cases hfault
    · rw [hcode] at hcode'
      cases hcode'
      exact ⟨owner', hinv'⟩
  | write handle offset value =>
    obtain ⟨hlive, hoffset, rfl⟩ := Threads.step_write hstep
    exact ⟨_, hinv.written hlive hoffset value⟩

end CppServer.Memory
