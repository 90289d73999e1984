import CppServer.Memory.Pooling

namespace CppServer.Memory

open Function Base

/-- The heap, and the pointers that `_aligned_free` was called with, in order. -/
structure Teardown where
  heap : Heap
  freed : List ℕ

/-- The loop of `~MemoryPool`: it takes the first block off the list and frees it, until there is
none. -/
def Teardown.drain (p : ℕ) : List ℕ → Teardown → Teardown
  | [], s => s
  | memory :: rest, s => drain p rest ⟨(s.heap.setHeader p rest).free memory, s.freed ++ [memory]⟩

/-- `delete pool`. -/
def Teardown.deletePool (s : Teardown) (p : ℕ) : Teardown := s.drain p (s.heap.header p)

/-- `~Memory`: the pools in the order in which they were made. -/
def Heap.destroy (h : Heap) : Teardown :=
  (List.range tables.pools.length).foldl Teardown.deletePool ⟨h, []⟩

namespace Teardown

variable {s : Teardown} {p : ℕ}

theorem drain_spec {blocks : List ℕ} (hlist : s.heap.header p = blocks) :
    (s.drain p blocks).heap.header = update s.heap.header p [] ∧
      (s.drain p blocks).heap.allocated = s.heap.allocated.diff blocks ∧
      (s.drain p blocks).freed = s.freed ++ blocks := by
  induction blocks generalizing s with
  | nil =>
    refine ⟨?_, (List.diff_nil _).symm, (List.append_nil _).symm⟩
    rw [drain, ← hlist, update_eq_self]
  | cons memory rest ih =>
    obtain ⟨hheader, hallocated, hfreed⟩ :=
      ih (s := ⟨(s.heap.setHeader p rest).free memory, s.freed ++ [memory]⟩) (update_self ..)
    rw [drain, hheader, hallocated, hfreed]
    refine ⟨?_, ?_, ?_⟩
    · simp only [Heap.free, Heap.setHeader, update_idem]
    · rw [List.diff_cons]
      rfl
    · rw [List.append_assoc, List.singleton_append]

/-- Different pools have different lists, so each `delete` sees its own as it was. -/
theorem foldl_deletePool {pools : List ℕ} (hnodup : pools.Nodup) :
    (∀ q, (pools.foldl deletePool s).heap.header q = if q ∈ pools then [] else s.heap.header q) ∧
      (pools.foldl deletePool s).heap.allocated =
        s.heap.allocated.diff (pools.flatMap s.heap.header) ∧
      (pools.foldl deletePool s).freed = s.freed ++ pools.flatMap s.heap.header := by
  induction pools generalizing s with
  | nil => simp
  | cons p pools ih =>
    obtain ⟨hout, hnodup⟩ := List.nodup_cons.mp hnodup
    obtain ⟨hheader, hallocated, hfreed⟩ := drain_spec (s := s) (p := p) rfl
    obtain ⟨hheader', hallocated', hfreed'⟩ := ih (s := s.deletePool p) hnodup
    have hsame : pools.flatMap (s.deletePool p).heap.header = pools.flatMap s.heap.header := by
      apply List.flatMap_congr
      intro q hq
      rw [deletePool, hheader, update_of_ne (ne_of_mem_of_not_mem hq hout)]
    rw [hsame] at hallocated' hfreed'
    refine ⟨fun q => ?_, ?_, ?_⟩
    · rw [List.foldl_cons, hheader', deletePool, hheader]
      by_cases hq : q = p
      · simp [hq]
      · simp [hq]
    · rw [List.foldl_cons, hallocated', deletePool, hallocated, List.flatMap_cons, List.diff_append]
    · rw [List.foldl_cons, hfreed', deletePool, hfreed, List.flatMap_cons, List.append_assoc]

end Teardown

variable {T : Type}

section Ownership

variable {owner : ℕ → Option (Owner T)} {s : Threads T}

/-- Only the pools that `Memory` made have blocks on their lists. -/
theorem Inv.lt_of_mem_header (hinv : Inv owner s) {a p : ℕ} (hmem : a ∈ s.heap.header p) :
    p < tables.pools.length := by
  by_contra hnot
  have hcapacity := (hinv.free p a hmem).1.2
  have hplaced := (hinv.apart.placed a (hinv.mem_of_owns (o := .free p) hmem)).2.2
  rw [hcapacity, poolSize, List.getD_eq_default _ _ (Nat.le_of_not_lt hnot)] at hplaced
  exact absurd hplaced (by decide)

theorem Inv.mem_flatMap_header (hinv : Inv owner s) {a : ℕ} :
    a ∈ (List.range tables.pools.length).flatMap s.heap.header ↔ ∃ p, owner a = some (.free p) := by
  rw [List.mem_flatMap]
  constructor
  · rintro ⟨p, -, hmem⟩
    exact ⟨p, (hinv.owns (.free p) a).mp hmem⟩
  · rintro ⟨p, howner⟩
    have hmem : a ∈ s.heap.header p := (hinv.owns (.free p) a).mpr howner
    exact ⟨p, List.mem_range.mpr (hinv.lt_of_mem_header hmem), hmem⟩

/-- No block lies on two lists, or twice on one. -/
theorem Inv.nodup_flatMap_header (hinv : Inv owner s) :
    ((List.range tables.pools.length).flatMap s.heap.header).Nodup := by
  rw [List.nodup_flatMap]
  refine ⟨fun p _ => hinv.lists p, List.nodup_range.imp fun {p q} hne => ?_⟩
  intro a hp hq
  have howns : Owns s (.free p) a := hp
  have howns' : Owns s (.free q) a := hq
  exact hne (Owner.free.inj (hinv.owner_unique howns howns'))

/-- At rest a block is with a caller or on a list. -/
theorem Inv.mem_allocated_of_idle (hinv : Inv owner s) (hidle : ∀ t, s.pc t = .idle) {a : ℕ} :
    a ∈ s.heap.allocated ↔ a ∈ s.live.map Handle.header ∨ ∃ p, owner a = some (.free p) := by
  rw [hinv.allocated]
  constructor
  · rintro ⟨o, howner⟩
    have howns := (hinv.owns o a).mpr howner
    cases o with
    | caller => exact .inl howns
    | call t =>
      have hblock : (s.pc t).block = some a := howns
      rw [hidle t] at hblock
      cases hblock
    | free p => exact .inr ⟨p, howner⟩
  · rintro (hlive | ⟨p, howner⟩)
    · exact ⟨.caller, (hinv.owns .caller a).mp hlive⟩
    · exact ⟨_, howner⟩

/-- `~Memory` leaves the blocks that are with a caller. -/
theorem Inv.destroyed (hinv : Inv owner s) (hidle : ∀ t, s.pc t = .idle) :
    s.heap.destroy.freed.Nodup ∧ (∀ a ∈ s.heap.destroy.freed, a ∈ s.heap.allocated) ∧
      s.heap.destroy.heap.allocated.Perm (s.live.map Handle.header) ∧
      ∀ p, s.heap.destroy.heap.header p = [] := by
  obtain ⟨hheader, hallocated, hfreed⟩ :=
    Teardown.foldl_deletePool (s := ⟨s.heap, []⟩) (List.nodup_range (n := tables.pools.length))
  rw [List.nil_append] at hfreed
  rw [Heap.destroy, hfreed, hallocated]
  refine ⟨hinv.nodup_flatMap_header, fun a ha => ?_, ?_, fun p => ?_⟩
  · rw [hinv.mem_allocated_of_idle hidle]
    exact .inr (hinv.mem_flatMap_header.mp ha)
  · rw [List.perm_ext_iff_of_nodup hinv.apart.nodup.diff hinv.handles]
    intro a
    rw [hinv.apart.nodup.mem_sdiff_iff, hinv.mem_allocated_of_idle hidle, hinv.mem_flatMap_header]
    constructor
    · rintro ⟨hlive | hfree, hnot⟩
      · exact hlive
      · exact absurd hfree hnot
    · intro hlive
      refine ⟨.inl hlive, ?_⟩
      rintro ⟨p, howner⟩
      exact hinv.not_live (o := .free p) ((hinv.owns _ a).mpr howner) nofun hlive
  · rw [hheader p]
    split
    · rfl
    case isFalse hnot =>
      rw [List.eq_nil_iff_forall_not_mem]
      exact fun a ha => hnot (List.mem_range.mpr (hinv.lt_of_mem_header ha))

end Ownership

variable [DecidableEq T]

/-- A step is of one thread at most. -/
def Act.thread : Act T → Option T
  | .allocate t _ => some t
  | .release t _ => some t
  | .run t _ => some t
  | .write .. => none

theorem Threads.pc_of_step {s s' : Threads T} {a : Act T} (hstep : s.step a = some s') {t : T}
    (hother : a.thread ≠ some t) : s'.pc t = s.pc t := by
  cases a with
  | allocate u size =>
    obtain ⟨-, -, rfl⟩ := step_allocate hstep
    exact update_of_ne (fun h => hother (congrArg some h.symm)) ..
  | release u handle =>
    obtain ⟨-, -, rfl⟩ := step_release hstep
    exact update_of_ne (fun h => hother (congrArg some h.symm)) ..
  | run u base =>
    obtain ⟨-, ⟨fault, -, rfl⟩ | ⟨heap, pc, -, rfl⟩⟩ := step_run hstep
    · rfl
    · exact update_of_ne (fun h => hother (congrArg some h.symm)) ..
  | write handle offset value =>
    obtain ⟨-, -, rfl⟩ := step_write hstep
    rfl

/-- What `~Memory` does after the threads are joined. It frees each block that lies on a list once
and no others, so that of all memory exactly the callers' live blocks remain; if they released all,
nothing is leaked. -/
theorem destroy_leaves_live {as : List (Act T)} {s : Threads T}
    (hrun : (Threads.machine T).Run Machine.Any as s) (hidle : ∀ t, s.pc t = .idle) :
    s.heap.destroy.freed.Nodup ∧ (∀ a ∈ s.heap.destroy.freed, a ∈ s.heap.allocated) ∧
      s.heap.destroy.heap.allocated.Perm (s.live.map Handle.header) ∧
      ∀ p, s.heap.destroy.heap.header p = [] := by
  obtain ⟨owner, hinv⟩ := exists_inv hrun
  exact hinv.destroyed hidle

/-- A thread keeps one of the two blocks that it had. -/
def keepOne (t : T) : List (Act T) :=
  [.allocate t 8, .run t 0, .run t 0, .run t 64, .run t 0, .run t 0, .allocate t 8, .run t 0, .run t 0,
    .run t 128, .run t 0, .run t 0, .release t ⟨128, 8⟩, .run t 0, .run t 0, .run t 0, .run t 0,
    .run t 0]

theorem destroy_leaves_live_one : ∃ s,
    (Threads.machine Unit).exec (Threads.machine Unit).start (keepOne ()) = some s ∧
      s.heap.destroy.freed = [128] ∧ s.heap.destroy.heap.allocated = [64] := by
  have hend : ((Threads.machine Unit).exec (Threads.machine Unit).start (keepOne ())).map
      (fun s => (s.pc (), s.live, s.heap.destroy.freed)) = some (.idle, [⟨64, 8⟩], [128]) := by
    decide +kernel
  obtain ⟨s, hexec, hs⟩ := Option.map_eq_some_iff.mp hend
  obtain ⟨hidle, hlive, hfreed⟩ : s.pc () = .idle ∧ s.live = [⟨64, 8⟩] ∧ s.heap.destroy.freed = [128] := by
    simpa using hs
  obtain ⟨-, -, hperm, -⟩ := destroy_leaves_live (Machine.run_of_exec hexec) fun _ => hidle
  rw [hlive] at hperm
  exact ⟨s, hexec, hfreed, List.perm_singleton.mp hperm⟩

end CppServer.Memory
