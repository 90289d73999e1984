import Mathlib

namespace CppServer.Memory

/-- `MAX_ALLOC_SIZE`. -/
def maxAllocSize : ℕ := 4096

/-- A header is a 16-byte list entry and an `int32`, aligned to 16. -/
def sizeofMemoryHeader : ℕ := 32

/-- The members that the constructor fills in and nothing changes later: the
block size of each pool, and for each total size the index of its pool. -/
structure Tables where
  pools : List ℕ := []
  poolTable : List ℕ := []

/-- One round of the constructor: a new pool, which takes the table's entries up
to its size. The length of the table is `tableIndex`. -/
def addPool (tables : Tables) (size : ℕ) : Tables where
  pools := tables.pools ++ [size]
  poolTable := tables.poolTable ++
    List.replicate (size + 1 - tables.poolTable.length) tables.pools.length

/-- The values of `size` in `for (size = first; size <= last; size += stride)`. -/
def sizes (first last stride : ℕ) : List ℕ :=
  List.range' first ((last - first) / stride + 1) stride

/-- The three loops of the constructor. 1024 and 2048 end one loop and begin the
next, so each of them gets a second pool, which the table never names. -/
def tables : Tables :=
  (sizes 32 1024 32 ++ sizes 1024 2048 128 ++ sizes 2048 4096 256).foldl addPool {}

def poolSize (p : ℕ) : ℕ := tables.pools.getD p 0

/-- The pool of a total size; `none` is an index outside `_poolTable`. -/
def poolOf (allocSize : ℤ) : Option ℕ :=
  if 0 ≤ allocSize then tables.poolTable[allocSize.toNat]? else none

/-- What the loops keep: an entry names a pool whose blocks are large enough, and
every pool's block holds a header and is no larger than the limit. -/
structure Tables.Sound (t : Tables) : Prop where
  pools : ∀ size ∈ t.pools, sizeofMemoryHeader ≤ size ∧ size ≤ maxAllocSize
  entries : ∀ (i p : ℕ), t.poolTable[i]? = some p → ∃ size, t.pools[p]? = some size ∧ i ≤ size
  length : t.poolTable.length ≤ maxAllocSize + 1

theorem Tables.Sound.addPool {t : Tables} (hsound : t.Sound) {size : ℕ}
    (hsize : sizeofMemoryHeader ≤ size ∧ size ≤ maxAllocSize) : (addPool t size).Sound := by
  refine ⟨?_, ?_, ?_⟩
  · intro size' hmem
    rcases List.mem_append.mp hmem with hold | hnew
    · exact hsound.pools size' hold
    · rw [List.mem_singleton.mp hnew]
      exact hsize
  · intro i p hentry
    simp only [Memory.addPool, List.getElem?_append] at hentry
    split at hentry
    case isTrue =>
      obtain ⟨size', hpool, hle⟩ := hsound.entries i p hentry
      exact ⟨size', List.getElem?_append_left (List.getElem?_eq_some_iff.mp hpool).1 ▸ hpool, hle⟩
    case isFalse hold =>
      rw [List.getElem?_replicate] at hentry
      split at hentry
      case isTrue hlt =>
        cases hentry
        exact ⟨size, by simp [Memory.addPool], by omega⟩
      case isFalse => cases hentry
  · have hlength := hsound.length
    simp only [Memory.addPool, List.length_append, List.length_replicate]
    omega

theorem Tables.Sound.foldl {t : Tables} (hsound : t.Sound) {l : List ℕ}
    (hsizes : ∀ size ∈ l, sizeofMemoryHeader ≤ size ∧ size ≤ maxAllocSize) :
    (l.foldl Memory.addPool t).Sound := by
  induction l generalizing t with
  | nil => exact hsound
  | cons size l ih =>
    apply ih (hsound.addPool (hsizes size List.mem_cons_self))
    exact fun size' hmem => hsizes size' (List.mem_cons_of_mem _ hmem)

/-- Later rounds leave the entries and pools of the earlier ones as they are. -/
theorem prefix_foldl_addPool (t : Tables) (l : List ℕ) :
    t.pools <+: (l.foldl addPool t).pools ∧ t.poolTable <+: (l.foldl addPool t).poolTable := by
  induction l generalizing t with
  | nil => exact ⟨List.prefix_rfl, List.prefix_rfl⟩
  | cons size l ih =>
    obtain ⟨hpools, htable⟩ := ih (addPool t size)
    exact ⟨(List.prefix_append _ _).trans hpools, (List.prefix_append _ _).trans htable⟩

/-- A round for a size leaves no entry up to that size unset. -/
theorem lt_length_foldl_addPool (t : Tables) {l : List ℕ} {size : ℕ} (hmem : size ∈ l) :
    size < (l.foldl addPool t).poolTable.length := by
  induction l generalizing t with
  | nil => exact absurd hmem List.not_mem_nil
  | cons first l ih =>
    rcases List.mem_cons.mp hmem with rfl | hlater
    · have hprefix := (prefix_foldl_addPool (addPool t size) l).2.length_le
      simp only [addPool, List.length_append, List.length_replicate] at hprefix
      simp only [List.foldl_cons, addPool]
      omega
    · exact ih (addPool t first) hlater

theorem mem_sizes {first last stride size : ℕ} (hmem : size ∈ sizes first last stride)
    (hle : first ≤ last) : first ≤ size ∧ size ≤ last := by
  obtain ⟨i, hi, rfl⟩ := List.mem_range'.mp hmem
  have hround : stride * i ≤ last - first := by
    calc
      stride * i ≤ stride * ((last - first) / stride) := Nat.mul_le_mul_left _ (by omega)
      _ ≤ last - first := Nat.mul_div_le _ _
  omega

theorem tables_sound : tables.Sound := by
  have hempty : Tables.Sound {} :=
    ⟨fun _ hmem => absurd hmem List.not_mem_nil, fun _ _ hentry => by simp at hentry, by simp⟩
  apply hempty.foldl
  intro size hmem
  simp only [sizeofMemoryHeader, maxAllocSize]
  rcases List.mem_append.mp hmem with hmem | hmem
  · rcases List.mem_append.mp hmem with hmem | hmem
    · have hrange := mem_sizes hmem (by omega)
      omega
    · have hrange := mem_sizes hmem (by omega)
      omega
  · have hrange := mem_sizes hmem (by omega)
    omega

/-- The table ends exactly at the limit. -/
theorem length_poolTable : tables.poolTable.length = maxAllocSize + 1 := by
  have hlast : 4096 < tables.poolTable.length := by
    apply lt_length_foldl_addPool
    apply List.mem_append_right
    exact List.mem_range'.mpr ⟨8, by decide, by decide⟩
  have hle := tables_sound.length
  simp only [maxAllocSize] at hle ⊢
  omega

/-- Every total size up to the limit has a pool, with blocks at least that large. -/
theorem exists_poolOf {allocSize : ℤ} (hpos : 0 ≤ allocSize) (hle : allocSize ≤ maxAllocSize) :
    ∃ p, poolOf allocSize = some p := by
  have hlt : allocSize.toNat < tables.poolTable.length := by
    rw [length_poolTable]
    omega
  refine ⟨tables.poolTable[allocSize.toNat], ?_⟩
  rw [poolOf, if_pos hpos]
  exact List.getElem?_eq_getElem hlt

/-- A lookup that succeeds was inside the table, and finds a pool of large enough
blocks. -/
theorem poolOf_spec {allocSize : ℤ} {p : ℕ} (hpool : poolOf allocSize = some p) :
    0 ≤ allocSize ∧ allocSize ≤ poolSize p ∧ sizeofMemoryHeader ≤ poolSize p ∧
      poolSize p ≤ maxAllocSize := by
  unfold poolOf at hpool
  split at hpool
  case isFalse => cases hpool
  case isTrue hpos =>
    obtain ⟨size, hsize, hle⟩ := tables_sound.entries _ p hpool
    have hrange := tables_sound.pools size (List.mem_of_getElem? hsize)
    have heq : poolSize p = size := by
      rw [poolSize, List.getD_eq_getElem?_getD, hsize, Option.getD_some]
    rw [heq]
    exact ⟨hpos, by omega, hrange⟩

/-- The first pool serves the sizes up to 32. -/
theorem poolOf_small (allocSize : ℤ) (hpos : 0 ≤ allocSize) (hle : allocSize ≤ 32) :
    poolOf allocSize = some 0 ∧ poolSize 0 = 32 := by
  have hprefix := prefix_foldl_addPool (addPool {} 32)
    (sizes 64 1024 32 ++ sizes 1024 2048 128 ++ sizes 2048 4096 256)
  have htables : tables = (sizes 64 1024 32 ++ sizes 1024 2048 128 ++ sizes 2048 4096 256).foldl
      addPool (addPool {} 32) := by
    have hfirst : sizes 32 1024 32 = 32 :: sizes 64 1024 32 := rfl
    rw [tables, hfirst]
    simp only [List.cons_append, List.foldl_cons]
  rw [← htables] at hprefix
  obtain ⟨⟨pools, hpools⟩, ⟨entries, hentries⟩⟩ := hprefix
  constructor
  · have hlt : allocSize.toNat < 33 := by omega
    rw [poolOf, if_pos hpos, ← hentries, List.getElem?_append_left (by simpa [addPool] using hlt)]
    exact List.getElem?_replicate_of_lt hlt
  · rw [poolSize, ← hpools]
    rfl

end CppServer.Memory
