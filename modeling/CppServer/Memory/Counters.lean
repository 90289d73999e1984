import CppServer.Base.Counting
import CppServer.Memory.Invariant

namespace CppServer.Memory

open Function Base

/-- Whether the pool counts the call's block as in use, while no caller has it. -/
def Pc.uses (h : Heap) (p : ℕ) : Pc → ℕ
  | .attach _ header => if (h.block header).creator = some p then 1 else 0
  | .release ptr => if (h.block (detachHeader ptr)).creator = some p then 1 else 0
  | .pushClear q _ | .pushList q _ | .pushUse q => if q = p then 1 else 0
  | _ => 0

/-- Whether the pool's list is one shorter than `_reserveCount` says, because of
this call. -/
def Pc.popped (p : ℕ) : Pc → ℕ
  | .popCheck _ q _ | .popReserve _ q _ => if q = p then 1 else 0
  | _ => 0

/-- Whether the pool's list is one longer than `_reserveCount` says. -/
def Pc.pushed (p : ℕ) : Pc → ℕ
  | .pushUse q | .pushReserve q => if q = p then 1 else 0
  | _ => 0

/-- Whether the step gives one of the pool's blocks to the caller. -/
def Pc.served (h : Heap) (p : ℕ) : Pc → ℕ
  | .attach _ header => if (h.block header).creator = some p then 1 else 0
  | _ => 0

variable {T : Type} {owner : ℕ → Option (Owner T)} {s : Threads T} {t : T}

/-- The pool's blocks in the callers' hands. -/
def Threads.liveCount (s : Threads T) (p : ℕ) : ℕ :=
  s.live.countP fun handle => (s.heap.block handle.header).creator = some p

theorem Pc.uses_congr {h h' : Heap} {pc : Pc} (p : ℕ)
    (hcreator : ∀ a, pc.block = some a → (h'.block a).creator = (h.block a).creator) :
    pc.uses h' p = pc.uses h p := by
  cases pc with
  | attach size header => simp only [Pc.uses, hcreator header rfl]
  | release ptr => simp only [Pc.uses, hcreator _ rfl]
  | _ => rfl

theorem Threads.liveCount_congr {heap : Heap} (p : ℕ)
    (hcreator : ∀ handle ∈ s.live,
      (heap.block handle.header).creator = (s.heap.block handle.header).creator) :
    { s with heap : Threads T }.liveCount p = s.liveCount p := by
  apply List.countP_congr
  intro handle hmem
  simp only [hcreator handle hmem]

/-- A step of the code changes the creator of no block that was allocated. -/
theorem creator_step {base : ℕ} {h h' : Heap} {pc pc' : Pc}
    (hcode : Memory.step base h pc = .ok (h', pc')) {a : ℕ}
    (hfresh : ∀ n, pc.request = some n → a ≠ base) :
    (h'.block a).creator = (h.block a).creator := by
  cases pc with
  | allocate size =>
    simp only [Memory.step] at hcode
    split at hcode <;> cases hcode <;> rfl
  | release ptr =>
    simp only [Memory.step] at hcode
    split at hcode
    case isTrue => split at hcode <;> cases hcode <;> rfl
    case isFalse => cases hcode
  | systemMalloc size =>
    cases hcode
    rw [h.block_malloc_of_ne (hfresh _ rfl)]
  | popMalloc size p =>
    cases hcode
    rw [h.block_malloc_of_ne (hfresh _ rfl)]
  | popList size p =>
    simp only [Memory.step] at hcode
    split at hcode <;> cases hcode <;> rfl
  | popCheck size p memory =>
    simp only [Memory.step] at hcode
    split at hcode <;> cases hcode
    rfl
  | attach size header =>
    simp only [Memory.step] at hcode
    split at hcode <;> cases hcode
    exact h.creator_setAllocSize header _ a
  | pushClear p header =>
    cases hcode
    exact h.creator_setAllocSize header _ a
  | _ =>
    cases hcode
    rfl

theorem Inv.creator_step (hinv : Inv owner s) {base : ℕ} {heap : Heap} {pc : Pc}
    (hcode : Memory.step base s.heap (s.pc t) = .ok (heap, pc))
    (hfresh : ∀ n, (s.pc t).request = some n → Fresh s.heap base n) {a : ℕ}
    (ha : a ∈ s.heap.allocated) : (heap.block a).creator = (s.heap.block a).creator := by
  apply Memory.creator_step hcode
  rintro n hrequest rfl
  exact hinv.apart.not_mem_of_fresh (hfresh n hrequest) (hinv.room_request hrequest) ha

/-- What a step does to a pool's `_useCount` is what it does to the blocks that the
counter counts. -/
theorem Inv.use_step (hinv : Inv owner s) {base : ℕ} {heap : Heap} {pc : Pc}
    (hcode : Memory.step base s.heap (s.pc t) = .ok (heap, pc)) (p : ℕ)
    (hfresh : ∀ n, (s.pc t).request = some n → Fresh s.heap base n) :
    heap.useCount p + BitVec.ofNat 32 ((s.pc t).uses s.heap p) =
      s.heap.useCount p + BitVec.ofNat 32 ((s.pc t).served s.heap p + pc.uses heap p) := by
  have hsuits := hinv.suits t
  generalize s.pc t = pc₀ at hcode hfresh hsuits ⊢
  cases pc₀ with
  | idle =>
    cases hcode
    rfl
  | allocate size =>
    simp only [Memory.step] at hcode
    split at hcode <;> cases hcode <;> rfl
  | systemMalloc size =>
    cases hcode
    simp [(s.heap.counts_malloc ..).1, Pc.uses, Pc.served, (hfresh _ rfl).block_malloc]
  | popList size q =>
    simp only [Memory.step] at hcode
    split at hcode <;> cases hcode <;> rfl
  | popMalloc size q =>
    cases hcode
    simp [(s.heap.counts_malloc ..).1, Pc.uses, Pc.served]
  | popCheck size q memory =>
    simp only [Memory.step] at hcode
    split at hcode <;> cases hcode
    rfl
  | popReserve size q memory =>
    cases hcode
    rfl
  | popUse size q memory =>
    cases hcode
    simp only [Heap.addUse, Pc.uses, Pc.served, hsuits.2.1, Option.some_inj]
    by_cases hp : p = q
    · simp [hp]
    · simp [hp, Ne.symm hp]
  | attach size header =>
    simp only [Memory.step] at hcode
    split at hcode <;> cases hcode
    rfl
  | release ptr =>
    obtain ⟨size, ⟨_, hfits⟩, hmark⟩ := hsuits
    simp only [Memory.step, hmark] at hcode
    split at hcode
    case isFalse => cases hcode
    case isTrue =>
      simp only [Pc.uses, Pc.served]
      cases hcreator : (s.heap.block (detachHeader ptr)).creator with
      | none =>
        rw [hcreator] at hfits
        rw [hfits.1] at hcode
        cases hcode
        simp
      | some q =>
        rw [hcreator] at hfits
        rw [hfits.1] at hcode
        cases hcode
        simp
  | pushClear q header =>
    cases hcode
    simp [Heap.setAllocSize, Pc.uses, Pc.served]
  | pushList q header =>
    cases hcode
    simp [Heap.setHeader, Pc.uses, Pc.served]
  | pushUse q =>
    cases hcode
    simp only [Heap.addUse, Pc.uses, Pc.served]
    by_cases hp : p = q
    · simp [hp, BitVec.add_assoc]
    · simp [hp, Ne.symm hp]
  | pushReserve q =>
    cases hcode
    rfl
  | systemFree header =>
    cases hcode
    rfl

/-- What a step does to a pool's `_reserveCount` is what it does to the pool's list,
up to the moment between the two. -/
theorem reserve_step {base : ℕ} {h h' : Heap} {pc pc' : Pc}
    (hcode : Memory.step base h pc = .ok (h', pc')) (p : ℕ) :
    h'.reserveCount p + BitVec.ofNat 32 ((h.header p).length + pc.popped p + pc'.pushed p) =
      h.reserveCount p + BitVec.ofNat 32 ((h'.header p).length + pc'.popped p + pc.pushed p) := by
  cases pc with
  | allocate size =>
    simp only [Memory.step] at hcode
    split at hcode <;> cases hcode <;> rfl
  | release ptr =>
    simp only [Memory.step] at hcode
    split at hcode
    case isTrue => split at hcode <;> cases hcode <;> rfl
    case isFalse => cases hcode
  | systemMalloc size =>
    cases hcode
    simp [(h.counts_malloc ..).2, Pc.popped, Pc.pushed]
  | popMalloc size q =>
    cases hcode
    simp [(h.counts_malloc ..).2, Pc.popped, Pc.pushed]
  | popList size q =>
    simp only [Memory.step] at hcode
    split at hcode
    case h_1 =>
      cases hcode
      rfl
    case h_2 memory rest hlist =>
      cases hcode
      simp only [Heap.setHeader, Pc.popped, Pc.pushed]
      by_cases hp : p = q
      · simp [hp, hlist]
      · simp [hp, Ne.symm hp]
  | popCheck size q memory =>
    simp only [Memory.step] at hcode
    split at hcode <;> cases hcode
    rfl
  | popReserve size q memory =>
    cases hcode
    simp only [Heap.addReserve, Pc.popped, Pc.pushed]
    by_cases hp : p = q
    · rw [hp]
      simp only [update_self, if_true, Nat.add_zero]
      bv_omega
    · simp [hp, Ne.symm hp]
  | attach size header =>
    simp only [Memory.step] at hcode
    split at hcode <;> cases hcode
    rfl
  | pushList q header =>
    cases hcode
    simp only [Heap.setHeader, Pc.popped, Pc.pushed]
    by_cases hp : p = q
    · simp [hp]
    · simp [hp, Ne.symm hp]
  | pushUse q =>
    cases hcode
    simp [Heap.addUse, Pc.popped, Pc.pushed]
  | pushReserve q =>
    cases hcode
    simp only [Heap.addReserve, Pc.popped, Pc.pushed]
    by_cases hp : p = q
    · rw [hp]
      simp only [update_self, if_true, Nat.add_zero]
      bv_omega
    · simp [hp, Ne.symm hp]
  | _ =>
    cases hcode
    rfl

theorem Inv.liveCount_step (hinv : Inv owner s) {base : ℕ} {heap : Heap} {pc : Pc}
    (hcode : Memory.step base s.heap (s.pc t) = .ok (heap, pc)) (p : ℕ)
    (hfresh : ∀ n, (s.pc t).request = some n → Fresh s.heap base n) :
    { s with heap, live := (s.pc t).returned s.live : Threads T }.liveCount p =
      s.liveCount p + (s.pc t).served s.heap p := by
  have hcreator (handle : Handle) (hmem : handle ∈ s.live) :
      (heap.block handle.header).creator = (s.heap.block handle.header).creator :=
    hinv.creator_step hcode hfresh (hinv.mem_of_owns (o := .caller) (List.mem_map_of_mem hmem))
  have hsame : { s with heap : Threads T }.liveCount p = s.liveCount p :=
    Threads.liveCount_congr p hcreator
  cases hpc : s.pc t with
  | attach size header =>
    have hown : Owns s (.call t) header := by
      simp only [Owns, hpc]
      rfl
    have hheader := hinv.creator_step hcode hfresh (hinv.mem_of_owns hown)
    simp only [Pc.returned, Pc.served, Threads.liveCount, List.countP_cons, hheader,
      decide_eq_true_eq]
    exact congrArg (· + _) hsame
  | _ => exact hsame

variable [Fintype T]

/-- What the counters of every pool say, calls in flight included. -/
structure Counters [Fintype T] (s : Threads T) : Prop where
  use : ∀ p, s.heap.useCount p = BitVec.ofNat 32 (s.liveCount p + ∑ t, (s.pc t).uses s.heap p)
  reserve : ∀ p, s.heap.reserveCount p + BitVec.ofNat 32 (∑ t, (s.pc t).pushed p) =
    BitVec.ofNat 32 ((s.heap.header p).length + ∑ t, (s.pc t).popped p)

/-- When no call is in flight, the counters are the numbers they count, as far as
32 bits hold them. -/
theorem Counters.idle (hcounters : Counters s) (hidle : ∀ t, s.pc t = .idle) (p : ℕ) :
    s.heap.useCount p = BitVec.ofNat 32 (s.liveCount p) ∧
      s.heap.reserveCount p = BitVec.ofNat 32 (s.heap.header p).length := by
  have huse := hcounters.use p
  have hreserve := hcounters.reserve p
  simp only [hidle, Pc.uses, Pc.pushed, Pc.popped, Finset.sum_const_zero, Nat.add_zero] at huse hreserve
  refine ⟨huse, ?_⟩
  simpa using hreserve

variable [DecidableEq T]

theorem counters_start : Counters (Threads.machine T).start := by
  constructor
  · intro p
    have hidle : ∑ u, ((Threads.machine T).start.pc u).uses (Threads.machine T).start.heap p = 0 :=
      Finset.sum_eq_zero fun u _ => rfl
    rw [hidle]
    rfl
  · intro p
    have hpushed : ∑ u, ((Threads.machine T).start.pc u).pushed p = 0 :=
      Finset.sum_eq_zero fun u _ => rfl
    have hpopped : ∑ u, ((Threads.machine T).start.pc u).popped p = 0 :=
      Finset.sum_eq_zero fun u _ => rfl
    rw [hpushed, hpopped]
    rfl

/-- One thread's step keeps the counters right, if they move with what it does. -/
theorem Counters.moved (hcounters : Counters s) (heap : Heap) (pc : Pc) (live : List Handle)
    (hothers : ∀ u, u ≠ t → ∀ p, (s.pc u).uses heap p = (s.pc u).uses s.heap p)
    (huse : ∀ p, heap.useCount p + BitVec.ofNat 32 (s.liveCount p + (s.pc t).uses s.heap p) =
      s.heap.useCount p + BitVec.ofNat 32
        ({ s with heap, live : Threads T }.liveCount p + pc.uses heap p))
    (hreserve : ∀ p, heap.reserveCount p + BitVec.ofNat 32
        ((s.heap.header p).length + (s.pc t).popped p + pc.pushed p) =
      s.heap.reserveCount p + BitVec.ofNat 32
        ((heap.header p).length + pc.popped p + (s.pc t).pushed p)) :
    Counters { s with heap, pc := update s.pc t pc, live } := by
  constructor
  · intro p
    have hrest (u : T) (hu : u ≠ t) :
        (update s.pc t pc u).uses heap p = (s.pc u).uses s.heap p := by
      rw [update_of_ne hu]
      exact hothers u hu p
    have hsum := Counting.total_change hrest
    rw [update_self] at hsum
    have hbefore := hcounters.use p
    have hafter := huse p
    simp only [Threads.liveCount] at *
    bv_omega
  · intro p
    have hpopped := Counting.total_update (Pc.popped p) s.pc t pc
    have hpushed := Counting.total_update (Pc.pushed p) s.pc t pc
    have hbefore := hcounters.reserve p
    have hafter := hreserve p
    simp only at *
    bv_omega

theorem Counters.step_run (hcounters : Counters s) (hinv : Inv owner s) {base : ℕ} {heap : Heap}
    {pc : Pc} (hcode : Memory.step base s.heap (s.pc t) = .ok (heap, pc))
    (hfresh : ∀ n, (s.pc t).request = some n → Fresh s.heap base n) :
    Counters { s with heap, pc := update s.pc t pc, live := (s.pc t).returned s.live } := by
  apply hcounters.moved
  · intro u _ p
    apply Pc.uses_congr
    intro a hpc
    exact hinv.creator_step hcode hfresh (hinv.mem_of_owns (o := .call u) hpc)
  · intro p
    have huse := hinv.use_step hcode p hfresh
    rw [hinv.liveCount_step hcode p hfresh]
    simp only [BitVec.ofNat_add] at huse ⊢
    bv_omega
  · exact fun p => reserve_step hcode p

/-- A call of `Release` takes the block out of the callers' hands into its own. -/
theorem Counters.calledRelease (hcounters : Counters s) {handle : Handle} (hidle : s.pc t = .idle)
    (hlive : handle ∈ s.live) :
    Counters
      { s with pc := update s.pc t (.release handle.ptr), live := s.live.erase handle } := by
  apply hcounters.moved s.heap
  · exact fun _ _ _ => rfl
  · intro p
    have hcount := (List.perm_cons_erase hlive).countP_eq
      fun handle => decide ((s.heap.block handle.header).creator = some p)
    rw [List.countP_cons] at hcount
    simp only [hidle, Pc.uses, Threads.liveCount, Handle.ptr, detachHeader_attachHeader, hcount]
    simp
  · intro p
    simp [hidle, Pc.popped, Pc.pushed]

theorem Counters.step {s' : Threads T} {a : Act T} (hcounters : Counters s) (hinv : Inv owner s)
    (hstep : Threads.step s a = some s') : Counters s' := by
  cases a with
  | allocate t size =>
    obtain ⟨hidle, _, rfl⟩ := Threads.step_allocate hstep
    apply hcounters.moved s.heap _ s.live
    · exact fun _ _ _ => rfl
    · intro p
      simp [hidle, Pc.uses, Threads.liveCount]
    · intro p
      simp [hidle, Pc.popped, Pc.pushed]
  | release t handle =>
    obtain ⟨hidle, hlive, rfl⟩ := Threads.step_release hstep
    exact hcounters.calledRelease hidle hlive
  | run t base =>
    obtain ⟨hfresh, ⟨fault, hfault, _⟩ | ⟨heap, pc, hcode, rfl⟩⟩ := Threads.step_run hstep
    · obtain ⟨heap, pc, _, hcode, _⟩ := hinv.step_run hfresh
      rw [hcode] at hfault
      cases hfault
    · exact hcounters.step_run hinv hcode hfresh
  | write handle offset value =>
    obtain ⟨_, _, rfl⟩ := Threads.step_write hstep
    have hcreator := s.heap.creator_write (handle.ptr + offset) value
    refine ⟨fun p => ?_, hcounters.reserve⟩
    have hlive : { s with heap := s.heap.write (handle.ptr + offset) value : Threads T }.liveCount p =
        s.liveCount p :=
      Threads.liveCount_congr p fun handle _ => hcreator handle.header
    rw [hlive, Finset.sum_congr rfl fun u _ => Pc.uses_congr p fun a _ => hcreator a]
    exact hcounters.use p

end CppServer.Memory
