import CppServer.Memory.System

namespace CppServer.Memory

open Function Base

variable {T : Type}

/-- Who has a block: a caller, a call in flight, or the list of a pool. -/
inductive Owner (T : Type)
  | caller
  | call (t : T)
  | free (p : ℕ)
deriving DecidableEq

theorem Owner.call_ne_call {t u : T} (hu : u ≠ t) : Owner.call t ≠ .call u :=
  fun h => hu (Owner.call.inj h).symm

theorem Owner.call_ne_caller {t : T} : Owner.call t ≠ .caller := nofun

theorem Owner.call_ne_free {t : T} {p : ℕ} : Owner.call t ≠ .free p := nofun

theorem Owner.caller_ne_free {p : ℕ} : (.caller : Owner T) ≠ .free p := nofun

/-- The block that a call has in its hands. -/
def Pc.block : Pc → Option ℕ
  | .popCheck _ _ memory | .popReserve _ _ memory | .popUse _ _ memory => some memory
  | .attach _ header | .pushClear _ header | .pushList _ header | .systemFree header => some header
  | .release ptr => some (detachHeader ptr)
  | .idle | .allocate _ | .systemMalloc _ | .popList _ _ | .popMalloc _ _ | .pushUse _
  | .pushReserve _ => none

def Owns (s : Threads T) : Owner T → ℕ → Prop
  | .caller, a => a ∈ s.live.map Handle.header
  | .call t, a => (s.pc t).block = some a
  | .free p, a => a ∈ s.heap.header p

/-- The block is one of the pool's. -/
def Pooled (p : ℕ) (b : Block) : Prop := b.creator = some p ∧ b.capacity = poolSize p

/-- The block is as it lies on the pool's list. -/
def Stored (p : ℕ) (b : Block) : Prop := Pooled p b ∧ b.allocSize = 0

/-- The block comes from where `Allocate` looks for one of that size, and
`Release` will put it there. -/
def Fits (b : Block) (size : BitVec 32) : Prop :=
  Requestable size ∧
    match b.creator with
    | none => route (allocSizeOf size) = .ok .system ∧ b.capacity = (allocSizeOf size).toNat
    | some p => route (allocSizeOf size) = .ok (.pool p) ∧ b.capacity = poolSize p

/-- The block is as `Allocate` hands it out. -/
def Served (b : Block) (size : BitVec 32) : Prop := Fits b size ∧ b.allocSize = allocSizeOf size

/-- What a place in the code says of the block in the call's hands. -/
def Pc.Suits (h : Heap) : Pc → Prop
  | .idle | .pushUse _ | .pushReserve _ => True
  | .allocate size => Requestable size
  | .systemMalloc size => Requestable size ∧ route (allocSizeOf size) = .ok .system
  | .popList size p | .popMalloc size p => Requestable size ∧ route (allocSizeOf size) = .ok (.pool p)
  | .popCheck size p memory =>
    (Requestable size ∧ route (allocSizeOf size) = .ok (.pool p)) ∧ Stored p (h.block memory)
  | .popReserve size p memory | .popUse size p memory =>
    (Requestable size ∧ route (allocSizeOf size) = .ok (.pool p)) ∧ Pooled p (h.block memory)
  | .attach size header => Fits (h.block header) size
  | .release ptr => ∃ size, Served (h.block (detachHeader ptr)) size
  | .pushClear p header => Pooled p (h.block header)
  | .pushList p header => Stored p (h.block header)
  | .systemFree header => (h.block header).creator = none

/-- The allocated blocks are where the system may put them. -/
structure Heap.Apart (h : Heap) : Prop where
  nodup : h.allocated.Nodup
  placed : ∀ a ∈ h.allocated, a ≠ 0 ∧ a % 16 = 0 ∧ sizeofMemoryHeader ≤ (h.block a).capacity
  apart : ∀ a ∈ h.allocated, ∀ b ∈ h.allocated, a ≠ b →
    a + (h.block a).capacity ≤ b ∨ b + (h.block b).capacity ≤ a

/-- Only the places and the capacities matter. -/
theorem Heap.Apart.congr {h h' : Heap} (hapart : h.Apart) (hallocated : h'.allocated = h.allocated)
    (hcapacity : ∀ a ∈ h.allocated, (h'.block a).capacity = (h.block a).capacity) : h'.Apart := by
  refine ⟨?_, ?_, ?_⟩
  · rw [hallocated]
    exact hapart.nodup
  · intro a ha
    rw [hallocated] at ha
    rw [hcapacity a ha]
    exact hapart.placed a ha
  · intro a ha b hb hne
    rw [hallocated] at ha hb
    rw [hcapacity a ha, hcapacity b hb]
    exact hapart.apart a ha b hb hne

/-- A block that the system hands out was not allocated. -/
theorem Heap.Apart.not_mem_of_fresh {h : Heap} (hapart : h.Apart) {base n : ℕ}
    (hfresh : Fresh h base n) (hroom : sizeofMemoryHeader ≤ n) : base ∉ h.allocated := by
  intro hmem
  have hplaced := (hapart.placed base hmem).2.2
  have hdisjoint := hfresh.2.2 base hmem
  simp only [sizeofMemoryHeader] at hroom hplaced
  omega

theorem Fresh.block_malloc {h : Heap} {base n : ℕ} (hfresh : Fresh h base n) (capacity : ℕ)
    (creator : Option ℕ) :
    (h.malloc base capacity creator).block base = ⟨capacity, creator, (h.block base).allocSize⟩ := by
  rw [Heap.malloc, if_neg hfresh.1]
  exact update_self ..

theorem Fresh.allocated_malloc {h : Heap} {base n : ℕ} (hfresh : Fresh h base n) (capacity : ℕ)
    (creator : Option ℕ) : (h.malloc base capacity creator).allocated = base :: h.allocated := by
  rw [Heap.malloc, if_neg hfresh.1]

theorem Heap.Apart.malloc {h : Heap} (hapart : h.Apart) {base capacity : ℕ}
    (hfresh : Fresh h base capacity) (hroom : sizeofMemoryHeader ≤ capacity)
    (creator : Option ℕ) : (h.malloc base capacity creator).Apart := by
  have hout := hapart.not_mem_of_fresh hfresh hroom
  have hself := hfresh.block_malloc capacity creator
  have hblock (a : ℕ) (hmem : a ∈ h.allocated) :
      (h.malloc base capacity creator).block a = h.block a :=
    h.block_malloc_of_ne (ne_of_mem_of_not_mem hmem hout) capacity creator
  refine ⟨?_, ?_, ?_⟩
  · rw [hfresh.allocated_malloc]
    exact List.nodup_cons.mpr ⟨hout, hapart.nodup⟩
  · intro b hb
    rw [hfresh.allocated_malloc] at hb
    rcases List.mem_cons.mp hb with rfl | hb
    · rw [hself]
      exact ⟨hfresh.1, hfresh.2.1, hroom⟩
    · rw [hblock b hb]
      exact hapart.placed b hb
  · intro b hb c hc hne
    rw [hfresh.allocated_malloc] at hb hc
    rcases List.mem_cons.mp hb with hbase | hb'
    · rcases List.mem_cons.mp hc with hbase' | hc'
      · exact absurd (hbase.trans hbase'.symm) hne
      · rw [hbase, hself, hblock c hc']
        exact (hfresh.2.2 c hc').symm
    · rcases List.mem_cons.mp hc with hbase' | hc'
      · rw [hbase', hself, hblock b hb']
        exact hfresh.2.2 b hb'
      · rw [hblock b hb', hblock c hc']
        exact hapart.apart b hb' c hc' hne

theorem Heap.Apart.free {h : Heap} (hapart : h.Apart) (header : ℕ) : (h.free header).Apart := by
  refine ⟨hapart.nodup.erase header, ?_, ?_⟩
  · exact fun b hb => hapart.placed b (List.mem_of_mem_erase hb)
  · exact fun b hb c hc => hapart.apart b (List.mem_of_mem_erase hb) c (List.mem_of_mem_erase hc)

/-- The invariant. Every allocated block has exactly one owner and is in the state
that its owner relies on. -/
structure Inv (owner : ℕ → Option (Owner T)) (s : Threads T) : Prop where
  safe : s.crashed = none
  owns : ∀ o a, Owns s o a ↔ owner a = some o
  allocated : ∀ a, a ∈ s.heap.allocated ↔ ∃ o, owner a = some o
  apart : s.heap.Apart
  handles : (s.live.map Handle.header).Nodup
  lists : ∀ p, (s.heap.header p).Nodup
  live : ∀ handle ∈ s.live, Served (s.heap.block handle.header) handle.size
  free : ∀ p, ∀ a ∈ s.heap.header p, Stored p (s.heap.block a)
  suits : ∀ t, (s.pc t).Suits s.heap

theorem Requestable.toInt_allocSizeOf {size : BitVec 32} (hsize : Requestable size) :
    (allocSizeOf size).toInt = size.toInt + sizeofMemoryHeader := by
  obtain ⟨hpos, hle⟩ := hsize
  simp only [sizeofMemoryHeader] at hle ⊢
  have hheader : BitVec.toInt (32 : BitVec 32) = 32 := rfl
  rw [allocSizeOf_eq, BitVec.toInt_add, hheader, Int.bmod_eq_of_le (by omega) (by omega)]
  rfl

theorem Requestable.exists_route {size : BitVec 32} (hsize : Requestable size) :
    ∃ r, route (allocSizeOf size) = .ok r := by
  apply Memory.exists_route
  have hpos := hsize.1
  rw [hsize.toInt_allocSizeOf]
  omega

/-- Both routes lead to a block with room for the header and the data. -/
theorem Requestable.room_system {size : BitVec 32} (hsize : Requestable size) :
    sizeofMemoryHeader + size.toNat = (allocSizeOf size).toNat := by
  have htotal := hsize.toInt_allocSizeOf
  have hnat := toNat_of_nonneg hsize.1
  simp only [sizeofMemoryHeader] at htotal ⊢
  have htotalNat := toNat_of_nonneg (x := allocSizeOf size) (by omega)
  omega

theorem Requestable.room_pool {size : BitVec 32} {p : ℕ} (hsize : Requestable size)
    (hroute : route (allocSizeOf size) = .ok (.pool p)) :
    sizeofMemoryHeader + size.toNat ≤ poolSize p := by
  have htotal := hsize.toInt_allocSizeOf
  have hnat := toNat_of_nonneg hsize.1
  have hpool := (poolOf_spec (route_pool hroute).2).2.1
  omega

theorem Fits.room {b : Block} {size : BitVec 32} (hfits : Fits b size) :
    sizeofMemoryHeader + size.toNat ≤ b.capacity := by
  obtain ⟨hsize, hfits⟩ := hfits
  cases hcreator : b.creator with
  | none =>
    rw [hcreator] at hfits
    rw [hfits.2, hsize.room_system]
  | some p =>
    rw [hcreator] at hfits
    rw [hfits.2]
    exact hsize.room_pool hfits.1

theorem Pc.Suits.congr {h h' : Heap} {pc : Pc} (hsuits : pc.Suits h)
    (hblock : ∀ a, pc.block = some a → h'.block a = h.block a) : pc.Suits h' := by
  cases pc <;>
    first
      | exact hsuits
      | (simp only [Pc.Suits] at hsuits ⊢
         rw [hblock _ rfl]
         exact hsuits)

variable {owner : ℕ → Option (Owner T)} {s : Threads T}

theorem Inv.mem_of_owns (hinv : Inv owner s) {o : Owner T} {a : ℕ} (howns : Owns s o a) :
    a ∈ s.heap.allocated :=
  (hinv.allocated a).mpr ⟨o, (hinv.owns o a).mp howns⟩

theorem Inv.owner_unique (hinv : Inv owner s) {o o' : Owner T} {a : ℕ} (howns : Owns s o a)
    (howns' : Owns s o' a) : o = o' := by
  have h := (hinv.owns o a).mp howns
  rw [(hinv.owns o' a).mp howns'] at h
  exact (Option.some.inj h).symm

theorem Inv.not_live (hinv : Inv owner s) {o : Owner T} {a : ℕ} (howns : Owns s o a)
    (hne : o ≠ .caller) : a ∉ s.live.map Handle.header :=
  fun h => hne (hinv.owner_unique howns h)

theorem Inv.not_free (hinv : Inv owner s) {o : Owner T} {a p : ℕ} (howns : Owns s o a)
    (hne : o ≠ .free p) : a ∉ s.heap.header p :=
  fun h => hne (hinv.owner_unique howns h)

/-- A step asks the system for a block that has room for a header. -/
theorem Inv.room_request (hinv : Inv owner s) {t : T} {n : ℕ} (hrequest : (s.pc t).request = some n) :
    sizeofMemoryHeader ≤ n := by
  have hsuits := hinv.suits t
  cases hpc : s.pc t with
  | systemMalloc size =>
    rw [hpc] at hsuits hrequest
    cases hrequest
    have hlarge := route_system hsuits.2
    have hnat := toNat_of_nonneg (x := allocSizeOf size) (by omega)
    simp only [maxAllocSize, sizeofMemoryHeader] at hlarge ⊢
    omega
  | popMalloc size p =>
    rw [hpc] at hsuits hrequest
    cases hrequest
    exact (poolOf_spec (route_pool hsuits.2).2).2.2.1
  | _ =>
    rw [hpc] at hrequest
    cases hrequest

variable [DecidableEq T]

/-- A step that leaves every block with its owner and as it is. -/
theorem Inv.moved (hinv : Inv owner s) {t : T} (heap : Heap) (pc : Pc)
    (hallocated : heap.allocated = s.heap.allocated) (hblock : heap.block = s.heap.block)
    (hheader : heap.header = s.heap.header) (hpc : pc.block = (s.pc t).block)
    (hsuits : pc.Suits s.heap) :
    Inv owner { s with heap, pc := update s.pc t pc } := by
  have hcongr {pc : Pc} (h : pc.Suits s.heap) : pc.Suits heap := h.congr fun a _ => by rw [hblock]
  refine ⟨hinv.safe, ?_, ?_, hinv.apart.congr hallocated fun a _ => by rw [hblock], hinv.handles,
    ?_, ?_, ?_, ?_⟩
  · intro o a
    rw [← hinv.owns o a]
    cases o with
    | caller => exact Iff.rfl
    | call u =>
      by_cases hu : u = t
      · simp only [Owns, hu, update_self, hpc]
      · simp only [Owns, update_of_ne hu]
    | free p => simp only [Owns, hheader]
  · rw [hallocated]
    exact hinv.allocated
  · rw [hheader]
    exact hinv.lists
  · rw [hblock]
    exact hinv.live
  · rw [hheader, hblock]
    exact hinv.free
  · apply (forall_update_iff s.pc fun _ pc => pc.Suits heap).mpr
    exact ⟨hcongr hsuits, fun u _ => hcongr (hinv.suits u)⟩

/-- Changing the owner of one block. -/
theorem owns_transfer (howns : ∀ o b, Owns s o b ↔ owner b = some o) {t : T} {heap : Heap}
    {pc : Pc} {live : List Handle} {a : ℕ} {o : Option (Owner T)}
    (hold : ∀ b, (s.pc t).block = some b → b = a) (hnew : ∀ b, pc.block = some b → b = a)
    (hlive : ∀ handle, handle.header ≠ a → (handle ∈ live ↔ handle ∈ s.live))
    (hheader : ∀ p b, b ≠ a → (b ∈ heap.header p ↔ b ∈ s.heap.header p))
    (hcaller : a ∈ live.map Handle.header ↔ o = some .caller)
    (hcall : pc.block = some a ↔ o = some (.call t))
    (hothers : ∀ u, u ≠ t → ((s.pc u).block = some a ↔ o = some (.call u)))
    (hfree : ∀ p, a ∈ heap.header p ↔ o = some (.free p)) :
    ∀ o' b, Owns { s with heap, pc := update s.pc t pc, live } o' b ↔ update owner a o b = some o' := by
  intro o' b
  by_cases hb : b = a
  · rw [hb, update_self]
    cases o' with
    | caller => exact hcaller
    | call u =>
      by_cases hu : u = t
      · simp only [Owns, hu, update_self]
        exact hcall
      · simp only [Owns, update_of_ne hu]
        exact hothers u hu
    | free p => exact hfree p
  · rw [update_of_ne hb, ← howns o' b]
    cases o' with
    | caller =>
      simp only [Owns, List.mem_map]
      constructor
      · rintro ⟨handle, hmem, rfl⟩
        exact ⟨handle, (hlive handle hb).mp hmem, rfl⟩
      · rintro ⟨handle, hmem, rfl⟩
        exact ⟨handle, (hlive handle hb).mpr hmem, rfl⟩
    | call u =>
      by_cases hu : u = t
      · simp only [Owns, hu, update_self]
        exact ⟨fun h => absurd (hnew b h) hb, fun h => absurd (hold b h) hb⟩
      · simp only [Owns, update_of_ne hu]
    | free p => exact hheader p b hb

/-- A step in which one block changes its owner, or its header. -/
theorem Inv.transfer (hinv : Inv owner s) {t : T} (heap : Heap) (pc : Pc) (live : List Handle)
    (o' : Owner T) {a : ℕ} {o : Owner T} (hown : Owns s o a) (hfrom : ∀ u, u ≠ t → o ≠ .call u)
    (hto : ∀ u, u ≠ t → o' ≠ .call u)
    (hallocated : heap.allocated = s.heap.allocated)
    (hcapacity : ∀ b, (heap.block b).capacity = (s.heap.block b).capacity)
    (hblock : ∀ b, b ≠ a → heap.block b = s.heap.block b)
    (hold : ∀ b, (s.pc t).block = some b → b = a) (hnew : ∀ b, pc.block = some b → b = a)
    (hlive : ∀ handle, handle.header ≠ a → (handle ∈ live ↔ handle ∈ s.live))
    (hheader : ∀ p b, b ≠ a → (b ∈ heap.header p ↔ b ∈ s.heap.header p))
    (hcaller : a ∈ live.map Handle.header ↔ o' = .caller)
    (hcall : pc.block = some a ↔ o' = .call t)
    (hfree : ∀ p, a ∈ heap.header p ↔ o' = .free p)
    (hhandles : (live.map Handle.header).Nodup) (hlists : ∀ p, (heap.header p).Nodup)
    (hserved : ∀ handle ∈ live, handle.header = a → Served (heap.block a) handle.size)
    (hstored : ∀ p, a ∈ heap.header p → Stored p (heap.block a)) (hsuits : pc.Suits heap) :
    Inv (update owner a (some o')) { s with heap, pc := update s.pc t pc, live } := by
  have hothers (u : T) (hu : u ≠ t) : (s.pc u).block ≠ some a :=
    fun h => hfrom u hu (hinv.owner_unique hown h)
  refine ⟨hinv.safe, ?_, ?_, hinv.apart.congr hallocated fun b _ => hcapacity b, hhandles, hlists,
    ?_, ?_, ?_⟩
  · apply owns_transfer hinv.owns hold hnew hlive hheader
    · rw [hcaller, Option.some_inj]
    · rw [hcall, Option.some_inj]
    · intro u hu
      exact ⟨fun h => absurd h (hothers u hu), fun h => absurd (Option.some.inj h) (hto u hu)⟩
    · intro p
      rw [hfree p, Option.some_inj]
  · intro b
    change b ∈ heap.allocated ↔ _
    rw [hallocated, hinv.allocated b]
    by_cases hb : b = a
    · rw [hb, update_self]
      exact ⟨fun _ => ⟨o', rfl⟩, fun _ => ⟨o, (hinv.owns o a).mp hown⟩⟩
    · rw [update_of_ne hb]
  · intro handle hmem
    by_cases hh : handle.header = a
    · rw [hh]
      exact hserved handle hmem hh
    · change Served (heap.block handle.header) handle.size
      rw [hblock _ hh]
      exact hinv.live handle ((hlive handle hh).mp hmem)
  · intro p b hmem
    by_cases hb : b = a
    · rw [hb] at hmem ⊢
      exact hstored p hmem
    · change Stored p (heap.block b)
      rw [hblock b hb]
      exact hinv.free p b ((hheader p b hb).mp hmem)
  · apply (forall_update_iff s.pc fun _ pc => pc.Suits heap).mpr
    refine ⟨hsuits, fun u hu => (hinv.suits u).congr fun b hpc => hblock b ?_⟩
    rintro rfl
    exact hothers u hu hpc

/-- The system hands a block to the call. -/
theorem Inv.malloced (hinv : Inv owner s) {t : T} {base : ℕ} {capacity : ℕ} {creator : Option ℕ}
    {pc : Pc} (hfresh : Fresh s.heap base capacity) (hroom : sizeofMemoryHeader ≤ capacity)
    (hold : (s.pc t).block = none) (hnew : pc.block = some base)
    (hsuits : pc.Suits (s.heap.malloc base capacity creator)) :
    Inv (update owner base (some (.call t)))
      { s with heap := s.heap.malloc base capacity creator, pc := update s.pc t pc } := by
  have hout := hinv.apart.not_mem_of_fresh hfresh hroom
  have hnone (o : Owner T) : ¬Owns s o base := fun howns => hout (hinv.mem_of_owns howns)
  have hblock (a : ℕ) (hmem : a ∈ s.heap.allocated) :
      (s.heap.malloc base capacity creator).block a = s.heap.block a :=
    s.heap.block_malloc_of_ne (ne_of_mem_of_not_mem hmem hout) capacity creator
  have hallocated := hfresh.allocated_malloc capacity creator
  have hheader := (s.heap.counts_malloc base capacity creator).2.2
  refine ⟨hinv.safe, ?_, ?_, hinv.apart.malloc hfresh hroom creator, hinv.handles, ?_, ?_, ?_, ?_⟩
  · apply owns_transfer hinv.owns
    · intro b hb
      rw [hold] at hb
      cases hb
    · intro b hb
      exact Option.some.inj (hb.symm.trans hnew)
    · exact fun _ _ => Iff.rfl
    · intro p b _
      rw [hheader]
    · exact ⟨fun h => absurd h (hnone .caller), nofun⟩
    · exact ⟨fun _ => rfl, fun _ => hnew⟩
    · intro u hu
      refine ⟨fun h => absurd h (hnone (.call u)), fun h => ?_⟩
      cases h
      exact absurd rfl hu
    · intro p
      rw [hheader]
      exact ⟨fun h => absurd h (hnone (.free p)), nofun⟩
  · intro b
    simp only [hallocated, List.mem_cons]
    by_cases hb : b = base
    · rw [hb, update_self]
      exact ⟨fun _ => ⟨_, rfl⟩, fun _ => .inl rfl⟩
    · rw [update_of_ne hb, ← hinv.allocated b]
      exact ⟨fun h => h.resolve_left hb, .inr⟩
  · rw [hheader]
    exact hinv.lists
  · intro handle hmem
    change Served ((s.heap.malloc base capacity creator).block handle.header) handle.size
    rw [hblock _ (hinv.mem_of_owns (o := .caller) (List.mem_map_of_mem hmem))]
    exact hinv.live handle hmem
  · intro p b hmem
    change b ∈ (s.heap.malloc base capacity creator).header p at hmem
    rw [hheader] at hmem
    change Stored p ((s.heap.malloc base capacity creator).block b)
    rw [hblock b (hinv.mem_of_owns (o := .free p) hmem)]
    exact hinv.free p b hmem
  · apply (forall_update_iff s.pc fun _ pc => pc.Suits _).mpr
    refine ⟨hsuits, fun u _ => (hinv.suits u).congr fun b hpc => hblock b ?_⟩
    exact hinv.mem_of_owns (o := .call u) hpc

/-- The call gives its block back to the system. -/
theorem Inv.freed (hinv : Inv owner s) {t : T} {header : ℕ}
    (hpc : s.pc t = .systemFree header) :
    Inv (update owner header none)
      { s with heap := s.heap.free header, pc := update s.pc t .idle } := by
  have hown : Owns s (.call t) header := by
    simp only [Owns, hpc]
    rfl
  refine ⟨hinv.safe, ?_, ?_, hinv.apart.free header, hinv.handles, hinv.lists, hinv.live,
    hinv.free, ?_⟩
  · apply owns_transfer hinv.owns
    · intro b hb
      rw [hpc] at hb
      exact (Option.some.inj hb).symm
    · intro b hb
      cases hb
    · exact fun _ _ => Iff.rfl
    · exact fun _ _ _ => Iff.rfl
    · exact ⟨fun h => absurd h (hinv.not_live hown nofun), nofun⟩
    · exact ⟨nofun, nofun⟩
    · intro u hu
      refine ⟨fun h => ?_, nofun⟩
      cases hinv.owner_unique (o := .call u) h hown
      exact absurd rfl hu
    · exact fun p => ⟨fun h => absurd h (hinv.not_free hown nofun), nofun⟩
  · intro b
    simp only [Heap.free, hinv.apart.nodup.mem_erase_iff]
    by_cases hb : b = header
    · simp [hb]
    · rw [update_of_ne hb, ← hinv.allocated b]
      exact ⟨fun h => h.2, fun h => ⟨hb, h⟩⟩
  · apply (forall_update_iff s.pc fun _ pc => pc.Suits _).mpr
    exact ⟨trivial, fun u _ => (hinv.suits u).congr fun _ _ => rfl⟩

end CppServer.Memory
