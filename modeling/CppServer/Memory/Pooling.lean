import CppServer.Memory.Counters

namespace CppServer.Memory

open Function Base

variable {T : Type}

/-- What callers may rely on. -/
structure Sound (s : Threads T) : Prop where
  safe : s.crashed = none
  disjoint : s.live.Pairwise fun a b =>
    a.header + (s.heap.block a.header).capacity ≤ b.header ∨
      b.header + (s.heap.block b.header).capacity ≤ a.header
  room : ∀ a ∈ s.live, a.header ∈ s.heap.allocated ∧
    a.ptr + a.size.toNat ≤ a.header + (s.heap.block a.header).capacity
  owned : ∀ a ∈ s.heap.allocated, ∀ p, (s.heap.block a).creator = some p →
    ∃ o, Owns s o a ∧ (∀ o', Owns s o' a → o' = o) ∧ ∀ q, o = .free q → q = p
  once : ∀ p, (s.heap.header p).Nodup
  free : ∀ p, ∀ a ∈ s.heap.header p, a ∈ s.heap.allocated ∧ (s.heap.block a).creator = some p ∧
    (s.heap.block a).allocSize = 0 ∧ (s.heap.block a).capacity = poolSize p
  useCount : (∀ t, s.pc t = .idle) → ∀ p, s.heap.useCount p = BitVec.ofNat 32 (s.liveCount p)
  reserveCount : (∀ t, s.pc t = .idle) →
    ∀ p, s.heap.reserveCount p = BitVec.ofNat 32 (s.heap.header p).length

theorem Inv.sound [Fintype T] {owner : ℕ → Option (Owner T)} {s : Threads T} (hinv : Inv owner s)
    (hcounters : Counters s) : Sound s := by
  have hmem (a : Handle) (ha : a ∈ s.live) : a.header ∈ s.heap.allocated :=
    hinv.mem_of_owns (o := .caller) (List.mem_map_of_mem ha)
  refine ⟨hinv.safe, ?_, ?_, ?_, hinv.lists, ?_, fun hidle p => (hcounters.idle hidle p).1,
    fun hidle p => (hcounters.idle hidle p).2⟩
  · apply (List.pairwise_map.mp hinv.handles).imp_of_mem
    intro a b ha hb hne
    exact hinv.apart.apart a.header (hmem a ha) b.header (hmem b hb) hne
  · intro a ha
    have hroom := (hinv.live a ha).1.room
    simp only [Handle.ptr, attachHeader]
    exact ⟨hmem a ha, by omega⟩
  · intro a ha p hcreator
    obtain ⟨o, howner⟩ := (hinv.allocated a).mp ha
    have hown := (hinv.owns o a).mpr howner
    refine ⟨o, hown, fun o' hown' => hinv.owner_unique hown' hown, ?_⟩
    rintro q rfl
    have hstored := (hinv.free q a hown).1.1
    rw [hcreator] at hstored
    exact (Option.some.inj hstored).symm
  · intro p a ha
    obtain ⟨⟨hcreator, hcapacity⟩, hmark⟩ := hinv.free p a ha
    exact ⟨hinv.mem_of_owns (o := .free p) ha, hcreator, hmark, hcapacity⟩

variable [DecidableEq T]

/-- The invariant holds in every state of every run. -/
theorem exists_inv {as : List (Act T)} {s : Threads T}
    (hrun : (Threads.machine T).Run Machine.Any as s) : ∃ owner, Inv owner s := by
  apply hrun.invariant (P := fun s => ∃ owner, Inv owner s)
  · exact ⟨_, inv_start⟩
  · exact fun s a s' hinv _ hstep => Inv.step hinv hstep

theorem counters_of_run [Fintype T] {as : List (Act T)} {s : Threads T}
    (hrun : (Threads.machine T).Run Machine.Any as s) : Counters s := by
  have hboth : (∃ owner, Inv owner s) ∧ Counters s := by
    apply hrun.invariant (P := fun s => (∃ owner, Inv owner s) ∧ Counters s)
    · exact ⟨⟨_, inv_start⟩, counters_start⟩
    · intro s a s' h _ hstep
      obtain ⟨⟨owner, hinv⟩, hcounters⟩ := h
      exact ⟨Inv.step ⟨owner, hinv⟩ hstep, hcounters.step hinv hstep⟩
  exact hboth.2

/-- In every state of every run, live blocks are disjoint and large enough, every
pooled block has one owner, free blocks are marked and lie with their pool, no
assertion fires, and at rest the counters are what they count, modulo 2^32. -/
theorem pooling_sound [Fintype T] {as : List (Act T)} {s : Threads T}
    (hrun : (Threads.machine T).Run Machine.Any as s) : Sound s := by
  obtain ⟨owner, hinv⟩ := exists_inv hrun
  exact hinv.sound (counters_of_run hrun)

/-- Two threads allocate at the same time. The block of the first is released and reused by the
second, whose own block the first releases in the meantime. -/
def handOver (t u : T) : List (Act T) :=
  [.allocate t 8, .allocate u 8, .run t 0, .run u 0, .run u 0, .run t 0, .run t 64, .run u 128,
    .run u 0, .run t 0, .run t 0, .run u 0, .release t ⟨64, 8⟩, .run t 0, .run t 0, .run t 0,
    .run t 0, .run t 0, .allocate u 4, .run u 0, .release t ⟨128, 8⟩, .run u 0, .run t 0, .run u 0,
    .run t 0, .run u 0, .run u 0, .run t 0, .run t 0, .run t 0, .run u 0]

theorem pooling_sound_two : ∃ s : Threads Bool,
    (Threads.machine Bool).exec (Threads.machine Bool).start (handOver false true) = some s ∧
      s.live = [⟨64, 4⟩] ∧ s.heap.header 1 = [128] ∧ Sound s := by
  have hend : ((Threads.machine Bool).exec (Threads.machine Bool).start (handOver false true)).map
      (fun s => (s.live, s.heap.header 1)) = some ([⟨64, 4⟩], [128]) := by
    decide +kernel
  obtain ⟨s, hexec, hlists⟩ := Option.map_eq_some_iff.mp hend
  obtain ⟨hlive, hheader⟩ := Prod.mk.inj hlists
  exact ⟨s, hexec, hlive, hheader, pooling_sound (Machine.run_of_exec hexec)⟩

/-- A thread takes one more step of its call. -/
theorem run_snoc {as : List (Act T)} {s : Threads T} {t : T} {heap : Heap} {pc : Pc}
    {live : List Handle} (base : ℕ) (heap' : Heap) (pc' : Pc)
    (hrun : (Threads.machine T).Run Machine.Any as { s with heap, pc := update s.pc t pc, live })
    (hsafe : s.crashed = none) (hbusy : pc ≠ .idle)
    (hfresh : ∀ n, pc.request = some n → Fresh heap base n)
    (hcode : Memory.step base heap pc = .ok (heap', pc')) :
    (Threads.machine T).Run Machine.Any (as ++ [.run t base])
      { s with heap := heap', pc := update s.pc t pc', live := pc.returned live } := by
  apply hrun.snoc trivial
  simp only [Threads.machine, Threads.step, update_self, update_idem]
  rw [if_pos ⟨hsafe, hbusy, hfresh⟩, hcode]

theorem fresh_of_request {pc : Pc} (heap : Heap) (base : ℕ) (hrequest : pc.request = none) (n : ℕ)
    (hn : pc.request = some n) : Fresh heap base n :=
  absurd (hrequest.symm.trans hn) (Option.some_ne_none n).symm

/-- The state after a call of `Allocate(0)` that ran on its own and found its pool
empty, so that the block comes from the system. -/
def Threads.served (s : Threads T) (base : ℕ) : Threads T :=
  { s with
    heap := ((s.heap.malloc base 32 (some 0)).addUse 0 1).setAllocSize base (allocSizeOf 0)
    live := ⟨base, 0⟩ :: s.live }

theorem run_served {as : List (Act T)} {s : Threads T} (t : T) (base : ℕ)
    (hrun : (Threads.machine T).Run Machine.Any as s) (hidle : s.pc t = .idle)
    (hempty : s.heap.header 0 = []) (hfresh : Fresh s.heap base 32) :
    ∃ as', (Threads.machine T).Run Machine.Any as' (s.served base) := by
  obtain ⟨owner, hinv⟩ := exists_inv hrun
  obtain ⟨hpool, hsize⟩ := poolOf_small (allocSizeOf 0).toInt (by decide) (by decide)
  have hroute : route (allocSizeOf 0) = .ok (.pool 0) := by
    rw [route, if_neg (by decide), hpool]
  have hcalled : (Threads.machine T).Run Machine.Any (as ++ [.allocate t 0])
      { s with pc := update s.pc t (.allocate 0) } := by
    apply hrun.snoc trivial
    exact if_pos ⟨hinv.safe, hidle, by decide⟩
  have hrouted := run_snoc 0 s.heap (.popList 0 0) hcalled hinv.safe (by simp)
    (fresh_of_request _ _ rfl) (by simp only [Memory.step, hroute])
  have hpopped := run_snoc 0 s.heap (.popMalloc 0 0) hrouted hinv.safe (by simp)
    (fresh_of_request _ _ rfl) (by simp only [Memory.step, hempty])
  have hmalloced := run_snoc base (s.heap.malloc base 32 (some 0)) (.popUse 0 0 base) hpopped
    hinv.safe (by simp)
    (fun n hn => by
      cases hn
      rwa [hsize])
    (by rw [Memory.step, hsize])
  have hused := run_snoc 0 ((s.heap.malloc base 32 (some 0)).addUse 0 1) (.attach 0 base) hmalloced
    hinv.safe (by simp) (fresh_of_request _ _ rfl) rfl
  have hattached := run_snoc 0 (s.served base).heap .idle hused hinv.safe (by simp)
    (fresh_of_request _ _ rfl) (if_neg hfresh.1)
  rw [← hidle, update_eq_self] at hattached
  exact ⟨_, hattached⟩

/-- At rest, `n` blocks of the first pool are with the callers and none on a list,
and all blocks lie below `32 * (n + 1)`. -/
structure Filled (s : Threads T) (n : ℕ) : Prop where
  idle : ∀ t, s.pc t = .idle
  empty : s.heap.header 0 = []
  count : s.liveCount 0 = n
  low : ∀ a ∈ s.heap.allocated, a + (s.heap.block a).capacity ≤ 32 * (n + 1)

omit [DecidableEq T] in
theorem Threads.served_heap (s : Threads T) (base : ℕ) (hnull : base ≠ 0) :
    (s.served base).heap.allocated = base :: s.heap.allocated ∧
      (s.served base).heap.header = s.heap.header ∧
      (s.served base).heap.block base = ⟨32, some 0, allocSizeOf 0⟩ ∧
      ∀ a, a ≠ base → (s.served base).heap.block a = s.heap.block a := by
  simp only [served, Heap.malloc, if_neg hnull, Heap.addUse, Heap.setAllocSize, update_self,
    true_and]
  intro a ha
  rw [update_of_ne ha, update_of_ne ha]

omit [DecidableEq T] in
theorem Filled.served {s : Threads T} {n : ℕ} (hfilled : Filled s n) {owner : ℕ → Option (Owner T)}
    (hinv : Inv owner s) : Filled (s.served (32 * (n + 1))) (n + 1) := by
  obtain ⟨hallocated, hheader, hself, hother⟩ := s.served_heap (32 * (n + 1)) (by omega)
  have hne (a : ℕ) (ha : a ∈ s.heap.allocated) : a ≠ 32 * (n + 1) := by
    have hlow := hfilled.low a ha
    have hroom := (hinv.apart.placed a ha).2.2
    simp only [sizeofMemoryHeader] at hroom
    omega
  refine ⟨hfilled.idle, (congrFun hheader 0).trans hfilled.empty, ?_, ?_⟩
  · have hsame : { s with heap := (s.served (32 * (n + 1))).heap : Threads T }.liveCount 0 =
        s.liveCount 0 := by
      apply Threads.liveCount_congr 0
      intro handle hmem
      rw [hother _ (hne _ (hinv.mem_of_owns (o := .caller) (List.mem_map_of_mem hmem)))]
    calc
      (s.served (32 * (n + 1))).liveCount 0
        = { s with heap := (s.served (32 * (n + 1))).heap : Threads T }.liveCount 0 + 1 := by
          exact List.countP_cons_of_pos (by simp only [hself, decide_true])
      _ = n + 1 := by rw [hsame, hfilled.count]
  · intro a ha
    rw [hallocated] at ha
    rcases List.mem_cons.mp ha with rfl | ha
    · rw [hself]
      simp only
      omega
    · have hlow := hfilled.low a ha
      rw [hother a (hne a ha)]
      omega

/-- Callers may hold any number of blocks of one pool. -/
theorem exists_filled (t : T) (n : ℕ) :
    ∃ as s, (Threads.machine T).Run Machine.Any as s ∧ Filled s n := by
  induction n with
  | zero =>
    refine ⟨[], _, .start, fun _ => rfl, rfl, rfl, ?_⟩
    exact fun a ha => absurd ha List.not_mem_nil
  | succ n ih =>
    obtain ⟨as, s, hrun, hfilled⟩ := ih
    obtain ⟨owner, hinv⟩ := exists_inv hrun
    have hfresh : Fresh s.heap (32 * (n + 1)) 32 :=
      ⟨by omega, by omega, fun a ha => .inl (hfilled.low a ha)⟩
    obtain ⟨as', hrun'⟩ := run_served t _ hrun (hfilled.idle t) hfilled.empty hfresh
    exact ⟨as', _, hrun', hfilled.served hinv⟩

/-- With 2^31 live blocks of the first pool, in 64 GiB, `_useCount` is negative. -/
theorem useCount_overflow : ∃ (as : List (Act Unit)) (s : Threads Unit),
    (Threads.machine Unit).Run Machine.Any as s ∧ (∀ t, s.pc t = .idle) ∧
      (∀ a ∈ s.heap.allocated, a + (s.heap.block a).capacity ≤ 2 ^ 37) ∧
      s.liveCount 0 = 2 ^ 31 ∧ (s.heap.useCount 0).toInt = -2 ^ 31 := by
  obtain ⟨as, s, hrun, hfilled⟩ := exists_filled () (2 ^ 31)
  refine ⟨as, s, hrun, hfilled.idle, fun a ha => (hfilled.low a ha).trans (by decide), hfilled.count, ?_⟩
  rw [((counters_of_run hrun).idle hfilled.idle 0).1, hfilled.count]
  decide

end CppServer.Memory
