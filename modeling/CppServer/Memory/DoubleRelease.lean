import CppServer.Memory.Counters
import CppServer.Memory.StlAllocator

namespace CppServer.Memory

open Function Base

/-- A size that leaves room for the header in a block of the largest pool. -/
def PooledSize (size : BitVec 32) : Prop :=
  0 ≤ size.toInt ∧ size.toInt + sizeofMemoryHeader ≤ maxAllocSize

instance decidablePooledSize (size : BitVec 32) : Decidable (PooledSize size) :=
  inferInstanceAs (Decidable (_ ∧ _))

/-- One thread, which may release every pointer that `Allocate` has returned. `returned` is
bookkeeping. -/
structure Sequential where
  threads : Threads Unit := {}
  returned : List ℕ := []

namespace Sequential

inductive Act
  | allocate (size : BitVec 32)
  | release (ptr : ℕ)
  | run (base : ℕ)
  | write (handle : Handle) (offset : ℕ) (value : BitVec 32)
deriving DecidableEq

/-- The block that the pointer stands for, if it has not been released. -/
def handle (s : Sequential) (ptr : ℕ) : Option Handle := s.threads.live.find? (·.ptr = ptr)

/-- The pointer that the next step returns. -/
def returning (s : Sequential) : List ℕ := (s.threads.pc ()).pointer.toList

def step (s : Sequential) : Act → Option Sequential
  | .allocate size =>
    if PooledSize size then
      (s.threads.step (.allocate () size)).map fun threads => { s with threads }
    else none
  | .release ptr =>
    if ptr ∈ s.returned then
      match s.handle ptr with
      | some handle => (s.threads.step (.release () handle)).map fun threads => { s with threads }
      | none =>
        if s.threads.crashed = none ∧ s.threads.pc () = .idle then
          some { s with threads.pc := update s.threads.pc () (.release ptr) }
        else none
    else none
  | .run base =>
    (s.threads.step (.run () base)).map fun threads =>
      { threads, returned := if threads.crashed = none then s.returning ++ s.returned else s.returned }
  | .write handle offset value =>
    if s.threads.pc () = .idle then
      (s.threads.step (.write handle offset value)).map fun threads => { s with threads }
    else none

def machine : Machine Sequential Act where
  start := {}
  step := step

end Sequential

/-- Where a call is, when no block comes from the system but for a pool. -/
def Pc.InPools : Pc → Prop
  | .allocate size => PooledSize size
  | .systemMalloc _ => False
  | _ => True

theorem PooledSize.route_ne_system {size : BitVec 32} (hsize : PooledSize size) :
    route (allocSizeOf size) ≠ .ok .system := by
  intro hroute
  have hlarge := route_system hroute
  obtain ⟨hnonneg, hle⟩ := hsize
  have hrequest : Requestable size := by
    simp only [Requestable, maxAllocSize] at *
    omega
  rw [hrequest.toInt_allocSizeOf] at hlarge
  omega

/-- A step of a call that stays in the pools hands nothing back to the system, and what it
gets from there is for a pool. -/
theorem Pc.InPools.step {h h' : Heap} {pc pc' : Pc} {base : ℕ} (hpc : pc.InPools)
    (hfree : ∀ header, pc ≠ .systemFree header) (hcode : Memory.step base h pc = .ok (h', pc')) :
    pc'.InPools ∧ (∀ a ∈ h.allocated, a ∈ h'.allocated) ∧
      ∀ a ∈ h'.allocated, a ∈ h.allocated ∨ (h'.block a).creator ≠ none := by
  cases pc with
  | allocate size =>
    have hroute := PooledSize.route_ne_system hpc
    simp only [Memory.step] at hcode
    split at hcode
    case h_1 hsystem => exact absurd hsystem hroute
    case h_2 =>
      cases hcode
      exact ⟨trivial, fun _ ha => ha, fun _ ha => .inl ha⟩
    case h_3 => cases hcode
  | systemMalloc size => exact absurd hpc id
  | popList size p =>
    simp only [Memory.step] at hcode
    split at hcode <;> cases hcode <;> exact ⟨trivial, fun _ ha => ha, fun _ ha => .inl ha⟩
  | popMalloc size p =>
    cases hcode
    unfold Heap.malloc
    split
    · exact ⟨trivial, fun _ ha => ha, fun _ ha => .inl ha⟩
    · refine ⟨trivial, fun a ha => List.mem_cons_of_mem _ ha, fun a ha => ?_⟩
      rcases List.mem_cons.mp ha with rfl | ha
      · right
        simp
      · exact .inl ha
  | popCheck size p memory =>
    simp only [Memory.step] at hcode
    split at hcode <;> cases hcode
    exact ⟨trivial, fun _ ha => ha, fun _ ha => .inl ha⟩
  | attach size header =>
    simp only [Memory.step] at hcode
    split at hcode <;> cases hcode
    exact ⟨trivial, fun _ ha => ha, fun _ ha => .inl ha⟩
  | release ptr =>
    simp only [Memory.step] at hcode
    split at hcode
    case isTrue =>
      split at hcode <;> cases hcode <;> exact ⟨trivial, fun _ ha => ha, fun _ ha => .inl ha⟩
    case isFalse => cases hcode
  | systemFree header => exact absurd rfl (hfree header)
  | _ =>
    cases hcode
    exact ⟨trivial, fun _ ha => ha, fun _ ha => .inl ha⟩

variable {owner : ℕ → Option (Owner Unit)} {s s' : Threads Unit} {base : ℕ}

/-- All blocks belong to pools. -/
structure AllPooled (s : Threads Unit) : Prop where
  creator : ∀ a ∈ s.heap.allocated, (s.heap.block a).creator ≠ none
  pc : (s.pc ()).InPools

/-- A block of a pool is not handed back to the system. -/
theorem Inv.ne_systemFree (hinv : Inv owner s) (hpooled : AllPooled s) (header : ℕ) :
    s.pc () ≠ .systemFree header := by
  intro hpc
  have howns : Owns s (.call ()) header := by simp [Owns, hpc, Pc.block]
  have hsuits := hinv.suits ()
  rw [hpc] at hsuits
  exact hpooled.creator header (hinv.mem_of_owns howns) hsuits

/-- A step inside a call does not fail and keeps what is allocated. -/
theorem Inv.run_pooled (hinv : Inv owner s) (hpooled : AllPooled s)
    (hstep : Threads.step s (.run () base) = some s') :
    (∃ owner', Inv owner' s') ∧ AllPooled s' ∧ ∀ a ∈ s.heap.allocated, a ∈ s'.heap.allocated := by
  have hinv' := Inv.step ⟨owner, hinv⟩ hstep
  obtain ⟨hfresh, ⟨fault, -, rfl⟩ | ⟨heap, pc, hcode, rfl⟩⟩ := Threads.step_run hstep
  · exact absurd hinv'.choose_spec.safe (Option.some_ne_none _)
  · obtain ⟨hpc, hkept, hnew⟩ := hpooled.pc.step (hinv.ne_systemFree hpooled) hcode
    refine ⟨hinv', ⟨fun a ha => ?_, by simpa using hpc⟩, hkept⟩
    rcases hnew a ha with hold | hcreator
    · rw [hinv.creator_step hcode hfresh hold]
      exact hpooled.creator a hold
    · exact hcreator

namespace Sequential

/-- The threads between two calls. -/
def between (s : Threads Unit) : Threads Unit := { s with pc := fun _ => .idle, crashed := none }

/-- A pointer that was returned stands for a block of a pool. -/
def Returned (s : Sequential) : Prop :=
  ∀ ptr ∈ s.returned, detachHeader ptr ∈ s.threads.heap.allocated ∧ attachHeader (detachHeader ptr) = ptr

/-- A call of `Release` with a pointer to a free block, or what has become of it. -/
structure Stale (s : Sequential) (ptr : ℕ) : Prop where
  pc : s.threads.pc () = .release ptr
  mark : (s.threads.heap.block (detachHeader ptr)).allocSize = 0
  crashed : s.threads.crashed = none ∨ s.threads.crashed = some (.crash .assertCrash)

/-- The states of a run: those of a program that releases each block once, and those in which
a pointer is released again. -/
inductive Sorted (s : Sequential) : Prop
  | sound {owner : ℕ → Option (Owner Unit)} : Inv owner s.threads → AllPooled s.threads →
      Returned s → Sorted s
  | stale {owner : ℕ → Option (Owner Unit)} {ptr : ℕ} : Inv owner (between s.threads) → Stale s ptr →
      Sorted s

variable {s s' : Sequential} {ptr : ℕ}

/-- A pointer that was returned and is not live leads to a header that is marked as free. -/
theorem mark_of_released (hinv : Inv owner s.threads) (hreturned : Returned s)
    (hidle : s.threads.pc () = .idle) (hptr : ptr ∈ s.returned) (hfree : s.handle ptr = none) :
    (s.threads.heap.block (detachHeader ptr)).allocSize = 0 := by
  obtain ⟨hmem, hattach⟩ := hreturned ptr hptr
  obtain ⟨o, howner⟩ := (hinv.allocated _).mp hmem
  have howns := (hinv.owns o _).mpr howner
  cases o with
  | caller =>
    obtain ⟨handle, hlive, hheader⟩ := List.mem_map.mp howns
    have hptr' : handle.ptr = ptr := by rw [Handle.ptr, hheader, hattach]
    have hne := List.find?_eq_none.mp hfree handle hlive
    simp [hptr'] at hne
  | call t =>
    have hblock : (s.threads.pc ()).block = some (detachHeader ptr) := howns
    rw [hidle] at hblock
    exact absurd hblock (Option.some_ne_none _).symm
  | free p => exact (hinv.free p _ howns).2

theorem step_allocate {size : BitVec 32} (hstep : s.step (.allocate size) = some s') :
    PooledSize size ∧ ∃ threads, s.threads.step (.allocate () size) = some threads ∧
      s' = { s with threads } := by
  simp only [step] at hstep
  split at hstep
  case isTrue hsize =>
    obtain ⟨threads, hthreads, rfl⟩ := Option.map_eq_some_iff.mp hstep
    exact ⟨hsize, threads, hthreads, rfl⟩
  case isFalse => cases hstep

theorem step_release (hstep : s.step (.release ptr) = some s') :
    ptr ∈ s.returned ∧
      ((∃ handle threads, s.threads.step (.release () handle) = some threads ∧ s' = { s with threads }) ∨
        (s.handle ptr = none ∧ s.threads.pc () = .idle ∧
          s' = { s with threads.pc := update s.threads.pc () (.release ptr) })) := by
  simp only [step] at hstep
  split at hstep
  case isTrue hptr =>
    refine ⟨hptr, ?_⟩
    split at hstep
    case h_1 handle _ =>
      obtain ⟨threads, hthreads, rfl⟩ := Option.map_eq_some_iff.mp hstep
      exact .inl ⟨handle, threads, hthreads, rfl⟩
    case h_2 hfree =>
      split at hstep
      case isTrue hidle =>
        cases hstep
        exact .inr ⟨hfree, hidle.2, rfl⟩
      case isFalse => cases hstep
  case isFalse => cases hstep

theorem step_run {base : ℕ} (hstep : s.step (.run base) = some s') :
    ∃ threads, s.threads.step (.run () base) = some threads ∧
      s' = { threads, returned := if threads.crashed = none then s.returning ++ s.returned
                                  else s.returned } := by
  obtain ⟨threads, hthreads, rfl⟩ := Option.map_eq_some_iff.mp hstep
  exact ⟨threads, hthreads, rfl⟩

theorem step_write {handle : Handle} {offset : ℕ} {value : BitVec 32}
    (hstep : s.step (.write handle offset value) = some s') :
    s.threads.pc () = .idle ∧ ∃ threads, s.threads.step (.write handle offset value) = some threads ∧
      s' = { s with threads } := by
  simp only [step] at hstep
  split at hstep
  case isTrue hidle =>
    obtain ⟨threads, hthreads, rfl⟩ := Option.map_eq_some_iff.mp hstep
    exact ⟨hidle, threads, hthreads, rfl⟩
  case isFalse => cases hstep

/-- What a step inside a call returns is the block that the call has. -/
theorem Returned.run {threads : Threads Unit} (hreturned : Returned s) (hinv : Inv owner s.threads)
    (hkept : ∀ a ∈ s.threads.heap.allocated, a ∈ threads.heap.allocated) (returned : List ℕ)
    (hlist : returned ⊆ s.returning ++ s.returned) : Returned { threads, returned } := by
  intro ptr hptr
  rcases List.mem_append.mp (hlist hptr) with hnew | hold
  · simp only [returning, Option.mem_toList] at hnew
    cases hpc : s.threads.pc () with
    | attach size header =>
      rw [hpc] at hnew
      cases hnew
      have howns : Owns s.threads (.call ()) header := by simp [Owns, hpc, Pc.block]
      rw [detachHeader_attachHeader]
      exact ⟨hkept header (hinv.mem_of_owns howns), rfl⟩
    | _ =>
      rw [hpc] at hnew
      cases hnew
  · obtain ⟨hmem, hattach⟩ := hreturned ptr hold
    exact ⟨hkept _ hmem, hattach⟩

/-- The next step of a stale call is the assertion. -/
theorem Stale.run (hstale : Stale s ptr) (hcrashed : s.threads.crashed = none) (base : ℕ) :
    s.step (.run base) = some { s with threads.crashed := some (.crash .assertCrash) } := by
  have hcode : Memory.step base s.threads.heap (.release ptr) = .error (.crash .assertCrash) := by
    rw [Memory.step, if_neg]
    rw [hstale.mark]
    decide
  simp only [step, Threads.step, hstale.pc, hcode]
  rw [if_pos ⟨hcrashed, by simp, fun n hn => absurd hn (by simp [Pc.request])⟩]
  rfl

/-- A sound state, and the next call or step of a call. -/
theorem Sorted.step_sound {a : Act} (hinv : Inv owner s.threads) (hpooled : AllPooled s.threads)
    (hreturned : Returned s) (hstep : s.step a = some s') : Sorted s' := by
  cases a with
  | allocate size =>
    obtain ⟨hsize, threads, hthreads, rfl⟩ := step_allocate hstep
    obtain ⟨owner', hinv'⟩ := Inv.step ⟨owner, hinv⟩ hthreads
    obtain ⟨-, -, rfl⟩ := Threads.step_allocate hthreads
    exact .sound hinv' ⟨hpooled.creator, by simpa [Pc.InPools] using hsize⟩ hreturned
  | release ptr =>
    obtain ⟨hptr, ⟨handle, threads, hthreads, rfl⟩ | ⟨hfree, hidle, rfl⟩⟩ := step_release hstep
    · obtain ⟨owner', hinv'⟩ := Inv.step ⟨owner, hinv⟩ hthreads
      obtain ⟨-, -, rfl⟩ := Threads.step_release hthreads
      exact .sound hinv' ⟨hpooled.creator, by simp [Pc.InPools]⟩ hreturned
    · have hbetween : between s.threads = s.threads := by
        have hpc : s.threads.pc = fun _ => .idle := funext fun _ => hidle
        rw [between, ← hpc, ← hinv.safe]
      have hmark := mark_of_released hinv hreturned hidle hptr hfree
      exact .stale (hbetween.symm ▸ hinv) ⟨by simp, hmark, .inl hinv.safe⟩
  | run base =>
    obtain ⟨threads, hthreads, rfl⟩ := step_run hstep
    obtain ⟨⟨owner', hinv'⟩, hpooled', hkept⟩ := hinv.run_pooled hpooled hthreads
    refine .sound hinv' hpooled' (hreturned.run hinv hkept _ ?_)
    rw [if_pos hinv'.safe]
    exact fun _ h => h
  | write handle offset value =>
    obtain ⟨hidle, threads, hthreads, rfl⟩ := step_write hstep
    obtain ⟨owner', hinv'⟩ := Inv.step ⟨owner, hinv⟩ hthreads
    obtain ⟨-, -, rfl⟩ := Threads.step_write hthreads
    refine .sound hinv' ⟨fun a ha => ?_, hpooled.pc⟩ hreturned
    rw [Heap.creator_write]
    exact hpooled.creator a ha

/-- A stale call goes no further than the assertion. -/
theorem Sorted.step_stale {a : Act} (hinv : Inv owner (between s.threads)) (hstale : Stale s ptr)
    (hstep : s.step a = some s') : Sorted s' := by
  have hbusy : s.threads.pc () ≠ .idle := by simp [hstale.pc]
  cases a with
  | allocate size =>
    obtain ⟨-, threads, hthreads, -⟩ := step_allocate hstep
    exact absurd (Threads.step_allocate hthreads).1 hbusy
  | release ptr' =>
    obtain ⟨-, ⟨handle, threads, hthreads, -⟩ | ⟨-, hidle, -⟩⟩ := step_release hstep
    · exact absurd (Threads.step_release hthreads).1 hbusy
    · exact absurd hidle hbusy
  | run base =>
    by_cases hcrashed : s.threads.crashed = none
    · rw [hstale.run hcrashed base] at hstep
      cases hstep
      exact .stale hinv ⟨hstale.pc, hstale.mark, .inr rfl⟩
    · obtain ⟨threads, hthreads, -⟩ := step_run hstep
      rw [Threads.step, if_neg fun h => hcrashed h.1] at hthreads
      cases hthreads
  | write handle offset value => exact absurd (step_write hstep).1 hbusy

theorem sorted_run {as : List Act} (hrun : machine.Run Machine.Any as s) : Sorted s := by
  apply hrun.invariant (P := Sorted)
  · refine .sound inv_start ⟨fun a ha => absurd ha List.not_mem_nil, trivial⟩ ?_
    exact fun ptr hptr => absurd hptr List.not_mem_nil
  · intro s a s' hsorted _ hstep
    cases hsorted with
    | sound hinv hpooled hreturned => exact Sorted.step_sound hinv hpooled hreturned hstep
    | stale hinv hstale => exact Sorted.step_stale hinv hstale hstep

/-- The free lists of a state in which each block has one owner. -/
theorem lists_of_inv {threads : Threads Unit} (hinv : Inv owner threads) :
    (∀ p, (threads.heap.header p).Nodup) ∧
      ∀ p q, p ≠ q → ∀ a ∈ threads.heap.header p, a ∉ threads.heap.header q := by
  refine ⟨hinv.lists, fun p q hne a hp hq => ?_⟩
  have howns : Owns threads (.free p) a := hp
  have howns' : Owns threads (.free q) a := hq
  exact hne (Owner.free.inj (hinv.owner_unique howns howns'))

/-- In every state of every run of one thread on the pools: a `Release` of a pointer that was
returned and is not live ends in the assertion, with the heap as it was, and no block is twice
on the free lists. -/
theorem double_release_detected {as : List Act} (hrun : machine.Run Machine.Any as s) :
    (∀ ptr ∈ s.returned, s.handle ptr = none → s.threads.crashed = none → s.threads.pc () = .idle →
      ∃ called, s.step (.release ptr) = some called ∧ called.threads.heap = s.threads.heap ∧
        ∀ base, ∃ after, called.step (.run base) = some after ∧
          after.threads.crashed = some (.crash .assertCrash) ∧
          after.threads.heap = s.threads.heap) ∧
    (∀ p, (s.threads.heap.header p).Nodup) ∧
    ∀ p q, p ≠ q → ∀ a ∈ s.threads.heap.header p, a ∉ s.threads.heap.header q := by
  cases sorted_run hrun with
  | sound hinv hpooled hreturned =>
    refine ⟨fun ptr hptr hfree hsafe hidle => ?_, lists_of_inv hinv⟩
    have hmark := mark_of_released hinv hreturned hidle hptr hfree
    refine ⟨{ s with threads.pc := update s.threads.pc () (.release ptr) }, ?_, rfl, fun base => ?_⟩
    · simp only [step, if_pos hptr, hfree]
      exact if_pos ⟨hsafe, hidle⟩
    · have hstale : Stale { s with threads.pc := update s.threads.pc () (.release ptr) } ptr :=
        ⟨by simp, hmark, .inl hsafe⟩
      exact ⟨_, hstale.run hsafe base, rfl, rfl⟩
  | stale hinv hstale =>
    have hlists := lists_of_inv hinv
    refine ⟨fun ptr _ _ _ hidle => ?_, hlists⟩
    rw [hstale.pc] at hidle
    cases hidle

/-- A block is allocated and released. -/
def released : List Act :=
  [.allocate 0, .run 0, .run 0, .run 32, .run 0, .run 0, .release 64, .run 0, .run 0, .run 0, .run 0, .run 0]

theorem double_release_of_released :
    ∃ s, machine.exec machine.start released = some s ∧
      ∃ called, s.step (.release 64) = some called ∧ called.threads.heap = s.threads.heap ∧
        ∀ base, ∃ after, called.step (.run base) = some after ∧
          after.threads.crashed = some (.crash .assertCrash) ∧
          after.threads.heap = s.threads.heap := by
  have hexec : (machine.exec machine.start released).any (fun s =>
      64 ∈ s.returned ∧ s.handle 64 = none ∧ s.threads.crashed = none ∧ s.threads.pc () = .idle) =
        true := by decide +kernel
  obtain ⟨s, hs, hprop⟩ := (Option.any_eq_true ..).mp hexec
  obtain ⟨hptr, hfree, hsafe, hidle⟩ := of_decide_eq_true hprop
  exact ⟨s, hs, (double_release_detected (Machine.run_of_exec hs)).1 64 hptr hfree hsafe hidle⟩

end Sequential

end CppServer.Memory
