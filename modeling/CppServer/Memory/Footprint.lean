import CppServer.Memory.Pooling

namespace CppServer.Memory

open Function Base

/-- The blocks that a pool has from the system; it gives none back before it is destroyed. -/
def Heap.created (h : Heap) (p : ℕ) : ℕ := h.allocated.countP fun a => (h.block a).creator = some p

/-- Whether the call is about to ask the system for a block for the pool. -/
def Pc.asking (p : ℕ) : Pc → ℕ
  | .popMalloc _ q => if q = p then 1 else 0
  | _ => 0

/-- Whether the call has a block of the pool in its hands. -/
def Pc.holding (h : Heap) (p : ℕ) (pc : Pc) : ℕ :=
  match pc.block with
  | some a => if (h.block a).creator = some p then 1 else 0
  | none => 0

/-- What the callers want of a pool: their blocks, those in the hands of calls in flight, and those
that calls are about to ask for. -/
def Threads.demand {T : Type} [Fintype T] (s : Threads T) (p : ℕ) : ℕ :=
  s.liveCount p + ∑ t, (s.pc t).holding s.heap p + ∑ t, (s.pc t).asking p

section Counting

variable {T : Type} [Fintype T] {owner : ℕ → Option (Owner T)} {s : Threads T}

/-- A pool's blocks are with the callers, in the hands of calls, or on its list. -/
theorem Inv.created_le (hinv : Inv owner s) (p : ℕ) :
    s.heap.created p ≤
      s.liveCount p + ∑ t, (s.pc t).holding s.heap p + (s.heap.header p).length := by
  classical
  let creator (a : ℕ) : Bool := decide ((s.heap.block a).creator = some p)
  let live := ((s.live.filter fun handle => creator handle.header).map Handle.header).toFinset
  let held := (Finset.univ.filter fun t => (s.pc t).holding s.heap p = 1).image
    fun t => (s.pc t).block.getD 0
  have hsubset : (s.heap.allocated.filter creator).toFinset ⊆
      live ∪ held ∪ (s.heap.header p).toFinset := by
    intro a ha
    obtain ⟨hmem, hcreator⟩ := List.mem_filter.mp (List.mem_toFinset.mp ha)
    have hcreator : (s.heap.block a).creator = some p := of_decide_eq_true hcreator
    obtain ⟨o, howner⟩ := (hinv.allocated a).mp hmem
    have howns := (hinv.owns o a).mpr howner
    simp only [Finset.mem_union]
    cases o with
    | caller =>
      obtain ⟨handle, hlive, rfl⟩ := List.mem_map.mp howns
      refine .inl (.inl (List.mem_toFinset.mpr (List.mem_map_of_mem (List.mem_filter.mpr ⟨hlive, ?_⟩))))
      exact decide_eq_true hcreator
    | call t =>
      have hblock : (s.pc t).block = some a := howns
      refine .inl (.inr (Finset.mem_image.mpr ⟨t, Finset.mem_filter.mpr ⟨Finset.mem_univ t, ?_⟩, ?_⟩))
      · simp only [Pc.holding, hblock, if_pos hcreator]
      · simp only [hblock, Option.getD_some]
    | free q =>
      have hstored := (hinv.free q a howns).1.1
      rw [hcreator] at hstored
      cases hstored
      exact .inr (List.mem_toFinset.mpr howns)
  have hcreated : s.heap.created p = (s.heap.allocated.filter creator).toFinset.card := by
    rw [List.toFinset_card_of_nodup (hinv.apart.nodup.filter _)]
    exact List.countP_eq_length_filter
  have hlive : live.card ≤ s.liveCount p := by
    apply (List.toFinset_card_le _).trans
    rw [List.length_map, Threads.liveCount, List.countP_eq_length_filter]
  have hheld : held.card ≤ ∑ t, (s.pc t).holding s.heap p := by
    apply Finset.card_image_le.trans
    rw [Finset.card_filter]
    apply Finset.sum_le_sum
    intro t _
    split
    case isTrue h => exact h.ge
    case isFalse => exact Nat.zero_le _
  have hlist := List.toFinset_card_le (s.heap.header p)
  have hcard := Finset.card_le_card hsubset
  have hunion := Finset.card_union_le (live ∪ held) (s.heap.header p).toFinset
  have hunion' := Finset.card_union_le live held
  omega

end Counting

section Steps

variable {T : Type} {owner : ℕ → Option (Owner T)} {s : Threads T} {t : T}

theorem Heap.created_congr {h h' : Heap} (p : ℕ) (hallocated : h'.allocated = h.allocated)
    (hcreator : ∀ a ∈ h.allocated, (h'.block a).creator = (h.block a).creator) :
    h'.created p = h.created p := by
  rw [created, created, hallocated]
  apply List.countP_congr
  intro a ha
  simp only [hcreator a ha]

theorem Heap.created_setAllocSize (h : Heap) (header : ℕ) (allocSize : BitVec 32) (p : ℕ) :
    (h.setAllocSize header allocSize).created p = h.created p :=
  Heap.created_congr p rfl fun a _ => h.creator_setAllocSize header allocSize a

theorem Heap.created_write (h : Heap) (addr : ℕ) (value : BitVec 32) (p : ℕ) :
    (h.write addr value).created p = h.created p :=
  Heap.created_congr p rfl fun a _ => h.creator_write addr value a

theorem Inv.created_malloc (hinv : Inv owner s) {base n : ℕ} (hfresh : Fresh s.heap base n)
    (hroom : sizeofMemoryHeader ≤ n) (creator : Option ℕ) (p : ℕ) :
    (s.heap.malloc base n creator).created p =
      s.heap.created p + if creator = some p then 1 else 0 := by
  have hout := hinv.apart.not_mem_of_fresh hfresh hroom
  have hother : s.heap.allocated.countP (fun a =>
      ((s.heap.malloc base n creator).block a).creator = some p) = s.heap.created p := by
    apply List.countP_congr
    intro a ha
    rw [s.heap.block_malloc_of_ne (ne_of_mem_of_not_mem ha hout)]
  rw [Heap.created, hfresh.allocated_malloc, List.countP_cons, hother, hfresh.block_malloc]
  simp only [decide_eq_true_eq]

theorem Heap.created_free (h : Heap) {header : ℕ} (hcreator : (h.block header).creator = none) (p : ℕ) :
    (h.free header).created p = h.created p := by
  by_cases hmem : header ∈ h.allocated
  · have hcount := (List.perm_cons_erase hmem).countP_eq fun a => decide ((h.block a).creator = some p)
    rw [List.countP_cons_of_neg (by simp [hcreator])] at hcount
    exact hcount.symm
  · simp only [Heap.free, List.erase_of_not_mem hmem]

/-- A step asks for a block for the pool only if the pool's list is empty, and gets one only if it
asked. -/
theorem Inv.created_step (hinv : Inv owner s) {base : ℕ} {heap : Heap} {pc : Pc}
    (hcode : Memory.step base s.heap (s.pc t) = .ok (heap, pc)) (p : ℕ)
    (hfresh : ∀ n, (s.pc t).request = some n → Fresh s.heap base n) :
    heap.header p = [] ∨
      heap.created p + pc.asking p = s.heap.created p + (s.pc t).asking p := by
  have hsuits := hinv.suits t
  have hroom := fun n => hinv.room_request (t := t) (n := n)
  generalize s.pc t = pc₀ at hcode hfresh hsuits hroom ⊢
  cases pc₀ with
  | allocate size =>
    simp only [Memory.step] at hcode
    split at hcode <;> cases hcode <;> exact .inr rfl
  | systemMalloc size =>
    cases hcode
    rw [hinv.created_malloc (hfresh _ rfl) (hroom _ rfl)]
    exact .inr rfl
  | popList size q =>
    simp only [Memory.step] at hcode
    split at hcode
    case h_1 hnil =>
      cases hcode
      by_cases hq : q = p
      · exact .inl (hq ▸ hnil)
      · exact .inr (by simp only [Pc.asking, if_neg hq])
    case h_2 =>
      cases hcode
      exact .inr rfl
  | popMalloc size q =>
    cases hcode
    rw [hinv.created_malloc (hfresh _ rfl) (hroom _ rfl)]
    right
    by_cases hq : q = p
    · simp [Pc.asking, hq]
    · simp [Pc.asking, hq]
  | popCheck size q memory =>
    simp only [Memory.step] at hcode
    split at hcode <;> cases hcode
    exact .inr rfl
  | attach size header =>
    simp only [Memory.step] at hcode
    split at hcode <;> cases hcode
    rw [s.heap.created_setAllocSize]
    exact .inr rfl
  | release ptr =>
    simp only [Memory.step] at hcode
    split at hcode
    case isTrue => split at hcode <;> cases hcode <;> exact .inr rfl
    case isFalse => cases hcode
  | pushClear q header =>
    cases hcode
    rw [s.heap.created_setAllocSize]
    exact .inr rfl
  | systemFree header =>
    cases hcode
    rw [s.heap.created_free hsuits]
    exact .inr rfl
  | _ =>
    cases hcode
    exact .inr rfl

end Steps

variable {T : Type} [Fintype T] [DecidableEq T] {s s' : Threads T}

/-- The step lemma: what a pool has got and is about to get stays below a bound on the demand. -/
theorem footprint_step {owner : ℕ → Option (Owner T)} {a : Act T} {n p : ℕ} (hinv : Inv owner s)
    (hbound : s.heap.created p + ∑ t, (s.pc t).asking p ≤ n)
    (hstep : Threads.step s a = some s') (hdemand : s'.demand p ≤ n) :
    s'.heap.created p + ∑ t, (s'.pc t).asking p ≤ n := by
  obtain ⟨owner', hinv'⟩ := Inv.step ⟨owner, hinv⟩ hstep
  cases a with
  | allocate t size =>
    obtain ⟨hidle, -, rfl⟩ := Threads.step_allocate hstep
    rwa [Counting.total_update_same (Pc.asking p) s.pc (by rw [hidle]; rfl)]
  | release t handle =>
    obtain ⟨hidle, -, rfl⟩ := Threads.step_release hstep
    rwa [Counting.total_update_same (Pc.asking p) s.pc (by rw [hidle]; rfl)]
  | write handle offset value =>
    obtain ⟨-, -, rfl⟩ := Threads.step_write hstep
    rwa [s.heap.created_write]
  | run t base =>
    obtain ⟨hfresh, ⟨fault, -, rfl⟩ | ⟨heap, pc, hcode, rfl⟩⟩ := Threads.step_run hstep
    · exact hbound
    · change heap.created p + ∑ u, Pc.asking p (update s.pc t pc u) ≤ n
      rcases hinv.created_step hcode p hfresh with hempty | hsame
      · -- nothing lies on the list, so all blocks are in demand
        have hcreated := hinv'.created_le p
        simp only [hempty, List.length_nil, Nat.add_zero] at hcreated
        simp only [Threads.demand] at hdemand
        omega
      · have htotal := Counting.total_update (Pc.asking p) s.pc t pc
        omega

/-- The memory that the pools keep. No pool ever has more blocks from the system than were wanted of
it at one time: in use, or on their way in calls. -/
theorem created_le_peak {n p : ℕ} {as : List (Act T)}
    (hrun : (Threads.machine T).Run (fun _ _ s' => s'.demand p ≤ n) as s) : s.heap.created p ≤ n := by
  have hboth : (∃ owner, Inv owner s) ∧ s.heap.created p + ∑ t, (s.pc t).asking p ≤ n := by
    apply hrun.invariant
      (P := fun s => (∃ owner, Inv owner s) ∧ s.heap.created p + ∑ t, (s.pc t).asking p ≤ n)
    · exact ⟨⟨_, inv_start⟩, by simp [Threads.machine, Heap.created, Pc.asking]⟩
    · intro s a s' h hdemand hstep
      obtain ⟨⟨owner, hinv⟩, hbound⟩ := h
      exact ⟨Inv.step ⟨owner, hinv⟩ hstep, footprint_step hinv hbound hstep hdemand⟩
  omega

/-- Two threads use the second pool one after the other. -/
def inTurn (t u : T) : List (Act T) :=
  [.allocate t 8, .run t 0, .run t 0, .run t 64, .run t 0, .run t 0, .release t ⟨64, 8⟩, .run t 0,
    .run t 0, .run t 0, .run t 0, .run t 0, .allocate u 4, .run u 0, .run u 0, .run u 0, .run u 0,
    .run u 0, .run u 0]

theorem created_le_peak_inTurn : ∃ s,
    (Threads.machine Bool).exec (Threads.machine Bool).start (inTurn false true) = some s ∧
      s.live = [⟨64, 4⟩] ∧ s.heap.created 1 ≤ 1 := by
  have hend : ((Threads.machine Bool).check (fun _ _ s' => s'.demand 1 ≤ 1)
      (Threads.machine Bool).start (inTurn false true)).map (fun s => s.live) = some [⟨64, 4⟩] := by
    decide +kernel
  obtain ⟨s, hcheck, hlive⟩ := Option.map_eq_some_iff.mp hend
  have hrun := Machine.run_of_check hcheck
  exact ⟨s, hrun.exec_eq, hlive, created_le_peak hrun⟩

end CppServer.Memory
