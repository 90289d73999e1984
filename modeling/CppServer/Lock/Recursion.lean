import CppServer.Lock.Invariant

namespace CppServer

def Hold.lock : Hold → Op
  | .write => .writeLock
  | .read => .readLock

def Hold.unlock : Hold → Op
  | .write => .writeUnlock
  | .read => .readUnlock

/-- A well-nested sequence of lock and unlock calls: nothing, or a pair with
its inner calls, followed by further calls. -/
inductive Nest
  | done
  | pair (hold : Hold) (inner after : Nest)

namespace Nest

def ops : Nest → List Op
  | .done => []
  | .pair hold inner after => hold.lock :: (inner.ops ++ hold.unlock :: after.ops)

def depth : Nest → ℕ
  | .done => 0
  | .pair _ inner after => max (inner.depth + 1) after.depth

/-- No write pair stands inside a read pair; `reads` counts the read pairs that
are open around the sequence. -/
def Ordered (reads : ℕ) : Nest → Prop
  | .done => True
  | .pair .write inner after => reads = 0 ∧ inner.Ordered reads ∧ after.Ordered reads
  | .pair .read inner after => inner.Ordered (reads + 1) ∧ after.Ordered reads

instance decidableOrdered : (reads : ℕ) → (nest : Nest) → Decidable (nest.Ordered reads)
  | _, .done => isTrue trivial
  | reads, .pair .write inner after =>
    have := decidableOrdered reads inner
    have := decidableOrdered reads after
    inferInstanceAs (Decidable (_ ∧ _ ∧ _))
  | reads, .pair .read inner after =>
    have := decidableOrdered (reads + 1) inner
    have := decidableOrdered reads after
    inferInstanceAs (Decidable (_ ∧ _))

end Nest

namespace Lock

/-- A call that no other thread disturbs, from its program counter to its
return. `none` is the end of the fuel. -/
def solo (lThreadId : BitVec 32) (ticks : ℕ → BitVec 64) :
    ℕ → Lock → Pc → Option (Except Cause Lock)
  | 0, _, _ => none
  | fuel + 1, lock, pc =>
    match Lock.step lThreadId (ticks fuel) lock pc with
    | .error cause => some (.error cause)
    | .ok (lock', .idle) => some (.ok lock')
    | .ok (lock', pc') => solo lThreadId ticks fuel lock' pc'

/-- Undisturbed calls one after another, up to the first crash. The clock may
show anything in each of them. -/
def callAll (lThreadId : BitVec 32) (fuel : ℕ) :
    (ℕ → ℕ → BitVec 64) → Lock → List Op → Option (Except Cause Lock)
  | _, lock, [] => some (.ok lock)
  | ticks, lock, op :: ops =>
    match solo lThreadId (ticks 0) fuel lock op.entry with
    | some (.ok lock') => callAll lThreadId fuel (fun n => ticks (n + 1)) lock' ops
    | some (.error cause) => some (.error cause)
    | none => none

/-- The lock of a writer that has entered it `writes` times for writing and
`reads` times for reading. -/
def owned (lThreadId : BitVec 32) (writes reads : ℕ) : Lock where
  lockFlag := desired lThreadId + BitVec.ofNat 32 reads
  writeCount := BitVec.ofNat 16 writes

section Calls

variable {lThreadId : BitVec 32} {ticks : ℕ → BitVec 64} {writes reads fuel : ℕ}

theorem owned_toNat (hreads : reads ≤ 65535) :
    (owned lThreadId writes reads).lockFlag.toNat = lThreadId.toNat % 65536 * 65536 + reads := by
  have hreads' : (BitVec.ofNat 32 reads).toNat = reads := by
    rw [BitVec.toNat_ofNat]
    omega
  simp only [owned, BitVec.toNat_add, desired_toNat, hreads']
  omega

theorem lockThreadId_owned (hnarrow : lThreadId.toNat ≤ 65535) (hreads : reads ≤ 65535)
    (writes : ℕ) :
    lThreadId = lockThreadId (owned lThreadId writes reads).lockFlag := by
  rw [eq_lockThreadId_iff, owned_toNat hreads]
  omega

theorem readCount_owned (hreads : reads ≤ 65535) :
    readCount (owned lThreadId writes reads).lockFlag = 0 ↔ reads = 0 := by
  rw [readCount_eq_zero_iff, owned_toNat hreads]
  omega

theorem owned_write_succ : owned lThreadId (writes + 1) reads =
    { owned lThreadId writes reads with
      writeCount := (owned lThreadId writes reads).writeCount + 1 } := by
  simp [owned, BitVec.ofNat_add]

theorem owned_read_succ : owned lThreadId writes (reads + 1) =
    { owned lThreadId writes reads with
      lockFlag := (owned lThreadId writes reads).lockFlag + 1 } := by
  simp [owned, BitVec.ofNat_add, BitVec.add_assoc]

theorem solo_reenter_write (hnarrow : lThreadId.toNat ≤ 65535) (hreads : reads ≤ 65535)
    (hfuel : 4 ≤ fuel) :
    solo lThreadId ticks fuel (owned lThreadId writes reads) Op.writeLock.entry =
      some (.ok (owned lThreadId (writes + 1) reads)) := by
  obtain ⟨fuel, rfl⟩ := Nat.exists_eq_add_of_le' hfuel
  have howner := lockThreadId_owned hnarrow hreads writes
  simp only [solo, Op.entry, Lock.step, if_pos howner]
  rw [owned_write_succ]

theorem solo_reenter_read (hnarrow : lThreadId.toNat ≤ 65535) (hreads : reads ≤ 65535)
    (hfuel : 4 ≤ fuel) :
    solo lThreadId ticks fuel (owned lThreadId writes reads) Op.readLock.entry =
      some (.ok (owned lThreadId writes (reads + 1))) := by
  obtain ⟨fuel, rfl⟩ := Nat.exists_eq_add_of_le' hfuel
  have howner := lockThreadId_owned hnarrow hreads writes
  simp only [solo, Op.entry, Lock.step, if_pos howner]
  rw [owned_read_succ]

/-- The first `WriteLock` finds the lock free and takes it at once. -/
theorem solo_acquire (hpositive : 0 < lThreadId.toNat) (hfuel : 4 ≤ fuel) :
    solo lThreadId ticks fuel {} Op.writeLock.entry = some (.ok (owned lThreadId 1 0)) := by
  obtain ⟨fuel, rfl⟩ := Nat.exists_eq_add_of_le' hfuel
  have howner : ¬ lThreadId = lockThreadId emptyFlag := by
    rw [eq_lockThreadId_iff]
    change ¬ 0 = lThreadId.toNat
    omega
  simp [solo, Op.entry, Lock.step, howner, owned]

theorem solo_leave_read (hreads : reads + 1 ≤ 65535) (hfuel : 4 ≤ fuel) :
    solo lThreadId ticks fuel (owned lThreadId writes (reads + 1)) Op.readUnlock.entry =
      some (.ok (owned lThreadId writes reads)) := by
  obtain ⟨fuel, rfl⟩ := Nat.exists_eq_add_of_le' hfuel
  have hcount : ¬ readCount (owned lThreadId writes (reads + 1)).lockFlag = 0 := by
    rw [readCount_owned hreads]
    omega
  simp only [solo, Op.entry, Lock.step, if_neg hcount]
  rw [owned_read_succ, BitVec.add_sub_cancel]

/-- Between the outermost and the innermost write hold an unlock only counts. -/
theorem solo_leave_write (hpositive : 0 < writes) (hwrites : writes + 1 ≤ 65535)
    (hfuel : 4 ≤ fuel) :
    solo lThreadId ticks fuel (owned lThreadId (writes + 1) 0) Op.writeUnlock.entry =
      some (.ok (owned lThreadId writes 0)) := by
  obtain ⟨fuel, rfl⟩ := Nat.exists_eq_add_of_le' hfuel
  have hcount : readCount (owned lThreadId (writes + 1) 0).lockFlag = 0 :=
    (readCount_owned (by omega)).mpr rfl
  have hdepth : ¬ (owned lThreadId writes 0).writeCount = 0 := by
    rw [← BitVec.toNat_inj]
    simp only [owned, BitVec.toNat_ofNat, BitVec.ofNat_eq_ofNat]
    omega
  have hback : (owned lThreadId (writes + 1) 0).writeCount - 1 =
      (owned lThreadId writes 0).writeCount := by
    rw [owned_write_succ, BitVec.add_sub_cancel]
  simp only [solo, Op.entry, Lock.step, hcount, ne_eq, not_true_eq_false, if_false, hback,
    if_neg hdepth]
  rfl

/-- The last unlock empties the lock. -/
theorem solo_release (hfuel : 4 ≤ fuel) :
    solo lThreadId ticks fuel (owned lThreadId 1 0) Op.writeUnlock.entry = some (.ok {}) := by
  obtain ⟨fuel, rfl⟩ := Nat.exists_eq_add_of_le' hfuel
  have hcount : readCount (owned lThreadId 1 0).lockFlag = 0 :=
    (readCount_owned (by omega)).mpr rfl
  have hlast : (owned lThreadId 1 0).writeCount - 1 = 0 := by
    simp [owned]
  simp only [solo, Op.entry, Lock.step, hcount, ne_eq, not_true_eq_false, if_false, hlast, if_true]

/-- `WriteUnlock` looks at the reads before it looks at the write depth. -/
theorem solo_leave_write_reading (hpositive : 0 < reads) (hreads : reads ≤ 65535)
    (hfuel : 4 ≤ fuel) :
    solo lThreadId ticks fuel (owned lThreadId writes reads) Op.writeUnlock.entry =
      some (.error .invalidUnlockOrder) := by
  obtain ⟨fuel, rfl⟩ := Nat.exists_eq_add_of_le' hfuel
  have hcount : ¬ readCount (owned lThreadId writes reads).lockFlag = 0 := by
    rw [readCount_owned hreads]
    omega
  simp only [solo, Op.entry, Lock.step, ne_eq, hcount, not_false_eq_true, if_true]

end Calls

section Sequences

theorem prefix_append_cases {α : Type} {as bs cs : List α} (hcalls : cs <+: as ++ bs) :
    cs <+: as ∨ ∃ ds, ds <+: bs ∧ cs = as ++ ds := by
  rcases List.prefix_or_prefix_of_prefix hcalls (List.prefix_append as bs) with h | ⟨ds, rfl⟩
  · exact .inl h
  · exact .inr ⟨ds, (List.prefix_append_right_inj as).mp hcalls, rfl⟩

variable {lThreadId : BitVec 32} {fuel : ℕ} {lock lock' : Lock} {ops ops' : List Op} {op : Op}
  {cause : Cause} (ticks : ℕ → ℕ → BitVec 64)

theorem callAll_cons_ok (hcall : solo lThreadId (ticks 0) fuel lock op.entry = some (.ok lock')) :
    callAll lThreadId fuel ticks lock (op :: ops) =
      callAll lThreadId fuel (fun n => ticks (n + 1)) lock' ops := by
  simp only [callAll, hcall]

theorem callAll_cons_error
    (hcall : solo lThreadId (ticks 0) fuel lock op.entry = some (.error cause)) :
    callAll lThreadId fuel ticks lock (op :: ops) = some (.error cause) := by
  simp only [callAll, hcall]

theorem callAll_append_ok (hcalls : callAll lThreadId fuel ticks lock ops = some (.ok lock')) :
    callAll lThreadId fuel ticks lock (ops ++ ops') =
      callAll lThreadId fuel (fun n => ticks (n + ops.length)) lock' ops' := by
  induction ops generalizing ticks lock with
  | nil =>
    cases hcalls
    rfl
  | cons op ops ih =>
    simp only [callAll] at hcalls
    split at hcalls
    case h_1 next hcall =>
      rw [List.cons_append, callAll_cons_ok ticks hcall, ih _ hcalls]
      simp only [List.length_cons, Nat.add_assoc]
    case h_2 => cases hcalls
    case h_3 => cases hcalls

theorem callAll_append_error
    (hcalls : callAll lThreadId fuel ticks lock ops = some (.error cause)) :
    callAll lThreadId fuel ticks lock (ops ++ ops') = some (.error cause) := by
  induction ops generalizing ticks lock with
  | nil => cases hcalls
  | cons op ops ih =>
    simp only [callAll] at hcalls
    split at hcalls
    case h_1 next hcall => rw [List.cons_append, callAll_cons_ok ticks hcall, ih _ hcalls]
    case h_2 stopped hcall =>
      cases hcalls
      rw [List.cons_append, callAll_cons_error ticks hcall]
    case h_3 => cases hcalls

end Sequences

section Nests

variable {lThreadId : BitVec 32} {fuel writes reads : ℕ}

/-- An ordered nest inside the owner's holds leaves the lock as it was. -/
theorem nest_unwinds (hnarrow : lThreadId.toNat ≤ 65535) (hfuel : 4 ≤ fuel) {nest : Nest}
    (hwrites : 0 < writes) (hdepth : writes + reads + nest.depth ≤ 65535)
    (hordered : nest.Ordered reads) (ticks : ℕ → ℕ → BitVec 64) :
    callAll lThreadId fuel ticks (owned lThreadId writes reads) nest.ops =
      some (.ok (owned lThreadId writes reads)) := by
  induction nest generalizing writes reads ticks with
  | done => rfl
  | pair hold inner after ihInner ihAfter =>
    simp only [Nest.depth] at hdepth
    cases hold with
    | write =>
      obtain ⟨rfl, hinner, hafter⟩ := hordered
      rw [Nest.ops, Hold.lock, callAll_cons_ok _ (solo_reenter_write hnarrow (by omega) hfuel),
        callAll_append_ok _ (ihInner (by omega) (by omega) hinner _), Hold.unlock,
        callAll_cons_ok _ (solo_leave_write hwrites (by omega) hfuel)]
      exact ihAfter hwrites (by omega) hafter _
    | read =>
      obtain ⟨hinner, hafter⟩ := hordered
      rw [Nest.ops, Hold.lock, callAll_cons_ok _ (solo_reenter_read hnarrow (by omega) hfuel),
        callAll_append_ok _ (ihInner hwrites (by omega) hinner _), Hold.unlock,
        callAll_cons_ok _ (solo_leave_read (by omega) hfuel)]
      exact ihAfter hwrites (by omega) hafter _

/-- At every return inside an ordered nest the thread is still the owner. -/
theorem nest_prefix_owned (hnarrow : lThreadId.toNat ≤ 65535) (hfuel : 4 ≤ fuel) {nest : Nest}
    (hwrites : 0 < writes) (hdepth : writes + reads + nest.depth ≤ 65535)
    (hordered : nest.Ordered reads) (ticks : ℕ → ℕ → BitVec 64) {calls : List Op}
    (hcalls : calls <+: nest.ops) :
    ∃ writes' reads', reads' ≤ 65535 ∧
      callAll lThreadId fuel ticks (owned lThreadId writes reads) calls =
        some (.ok (owned lThreadId writes' reads')) := by
  induction nest generalizing writes reads ticks calls with
  | done =>
    obtain rfl := List.prefix_nil.mp hcalls
    exact ⟨writes, reads, by omega, rfl⟩
  | pair hold inner after ihInner ihAfter =>
    simp only [Nest.depth] at hdepth
    rcases List.prefix_cons_iff.mp hcalls with rfl | ⟨calls, rfl, hbody⟩
    · exact ⟨writes, reads, by omega, rfl⟩
    cases hold with
    | write =>
      obtain ⟨rfl, hinner, hafter⟩ := hordered
      rw [Hold.lock, callAll_cons_ok _ (solo_reenter_write hnarrow (by omega) hfuel)]
      rcases prefix_append_cases hbody with hcalls | ⟨calls, hrest, rfl⟩
      · exact ihInner (by omega) (by omega) hinner _ hcalls
      rw [callAll_append_ok _ (nest_unwinds hnarrow hfuel (by omega) (by omega) hinner _)]
      rcases List.prefix_cons_iff.mp hrest with rfl | ⟨calls, rfl, hlater⟩
      · exact ⟨writes + 1, 0, by omega, rfl⟩
      rw [Hold.unlock, callAll_cons_ok _ (solo_leave_write hwrites (by omega) hfuel)]
      exact ihAfter hwrites (by omega) hafter _ hlater
    | read =>
      obtain ⟨hinner, hafter⟩ := hordered
      rw [Hold.lock, callAll_cons_ok _ (solo_reenter_read hnarrow (by omega) hfuel)]
      rcases prefix_append_cases hbody with hcalls | ⟨calls, hrest, rfl⟩
      · exact ihInner hwrites (by omega) hinner _ hcalls
      rw [callAll_append_ok _ (nest_unwinds hnarrow hfuel hwrites (by omega) hinner _)]
      rcases List.prefix_cons_iff.mp hrest with rfl | ⟨calls, rfl, hlater⟩
      · exact ⟨writes, reads + 1, by omega, rfl⟩
      rw [Hold.unlock, callAll_cons_ok _ (solo_leave_read (by omega) hfuel)]
      exact ihAfter hwrites (by omega) hafter _ hlater

/-- A write pair inside a read pair ends in the crash: its `WriteUnlock` comes
while the read hold is outstanding. -/
theorem nest_crashes (hnarrow : lThreadId.toNat ≤ 65535) (hfuel : 4 ≤ fuel) {nest : Nest}
    (hwrites : 0 < writes) (hdepth : writes + reads + nest.depth ≤ 65535)
    (hdisordered : ¬ nest.Ordered reads) (ticks : ℕ → ℕ → BitVec 64) :
    callAll lThreadId fuel ticks (owned lThreadId writes reads) nest.ops =
      some (.error .invalidUnlockOrder) := by
  induction nest generalizing writes reads ticks with
  | done => exact absurd trivial hdisordered
  | pair hold inner after ihInner ihAfter =>
    simp only [Nest.depth] at hdepth
    cases hold with
    | write =>
      rw [Nest.ops, Hold.lock, callAll_cons_ok _ (solo_reenter_write hnarrow (by omega) hfuel)]
      by_cases hinner : inner.Ordered reads
      · rw [callAll_append_ok _ (nest_unwinds hnarrow hfuel (by omega) (by omega) hinner _),
          Hold.unlock]
        by_cases hreads : reads = 0
        · subst hreads
          rw [callAll_cons_ok _ (solo_leave_write hwrites (by omega) hfuel)]
          exact ihAfter hwrites (by omega) (fun hafter => hdisordered ⟨rfl, hinner, hafter⟩) _
        · exact callAll_cons_error _ (solo_leave_write_reading (by omega) (by omega) hfuel)
      · exact callAll_append_error _ (ihInner (by omega) (by omega) hinner _)
    | read =>
      rw [Nest.ops, Hold.lock, callAll_cons_ok _ (solo_reenter_read hnarrow (by omega) hfuel)]
      by_cases hinner : inner.Ordered (reads + 1)
      · rw [callAll_append_ok _ (nest_unwinds hnarrow hfuel hwrites (by omega) hinner _),
          Hold.unlock, callAll_cons_ok _ (solo_leave_read (by omega) hfuel)]
        exact ihAfter hwrites (by omega) (fun hafter => hdisordered ⟨hinner, hafter⟩) _
      · exact callAll_append_error _ (ihInner hwrites (by omega) hinner _)

end Nests

/-- A nest whose outermost pair is a write pair, entered on a free lock: with
no write pair inside a read pair it ends with the lock empty again and the
thread owns the lock at every return before the last; with one it crashes. -/
theorem recursive_entry {lThreadId : BitVec 32} (hpositive : 0 < lThreadId.toNat)
    (hnarrow : lThreadId.toNat ≤ 65535) {fuel : ℕ} (hfuel : 4 ≤ fuel)
    (ticks : ℕ → ℕ → BitVec 64) {body : Nest} (hdepth : (Nest.pair .write body .done).depth ≤ 65535) :
    (body.Ordered 0 →
      callAll lThreadId fuel ticks {} (Nest.pair .write body .done).ops = some (.ok {}) ∧
      ∀ calls, calls <+: (Nest.pair .write body .done).ops → calls ≠ [] →
        calls ≠ (Nest.pair .write body .done).ops →
        ∃ lock, callAll lThreadId fuel ticks {} calls = some (.ok lock) ∧
          lockThreadId lock.lockFlag = lThreadId) ∧
    (¬ body.Ordered 0 →
      callAll lThreadId fuel ticks {} (Nest.pair .write body .done).ops =
        some (.error .invalidUnlockOrder)) := by
  simp only [Nest.depth] at hdepth
  have hacquire :
      solo lThreadId (ticks 0) fuel {} Op.writeLock.entry = some (.ok (owned lThreadId 1 0)) :=
    solo_acquire hpositive hfuel
  refine ⟨fun hordered => ⟨?_, ?_⟩, fun hdisordered => ?_⟩
  · rw [Nest.ops, Hold.lock, callAll_cons_ok _ hacquire,
      callAll_append_ok _ (nest_unwinds hnarrow hfuel Nat.one_pos (by omega) hordered _),
      Hold.unlock, callAll_cons_ok _ (solo_release hfuel)]
    rfl
  · intro calls hcalls hsome hproper
    rcases List.prefix_cons_iff.mp hcalls with rfl | ⟨calls, rfl, hbody⟩
    · exact absurd rfl hsome
    rw [Hold.lock, callAll_cons_ok _ hacquire]
    rcases prefix_append_cases hbody with hinner | ⟨last, hlast, rfl⟩
    · obtain ⟨writes, reads, hreads, hrun⟩ :=
        nest_prefix_owned hnarrow hfuel Nat.one_pos (by omega) hordered _ hinner
      exact ⟨_, hrun, (lockThreadId_owned hnarrow hreads _).symm⟩
    · rcases List.prefix_cons_iff.mp hlast with rfl | ⟨rest, rfl, hrest⟩
      · rw [List.append_nil]
        exact ⟨_, nest_unwinds hnarrow hfuel Nat.one_pos (by omega) hordered _,
          (lockThreadId_owned hnarrow (by omega) _).symm⟩
      · obtain rfl := List.prefix_nil.mp hrest
        exact absurd rfl hproper
  · rw [Nest.ops, Hold.lock, callAll_cons_ok _ hacquire]
    exact callAll_append_error _ (nest_crashes hnarrow hfuel Nat.one_pos (by omega) hdisordered _)

/-- Writing twice, the inner hold around two reads. -/
def writeWriteRead : Nest := .pair .write (.pair .read .done (.pair .read .done .done)) .done

theorem recursive_entry_write_read :
    callAll 7 4 (fun _ _ => 0) {} (Nest.pair .write writeWriteRead .done).ops = some (.ok {}) :=
  ((recursive_entry (by decide) (by decide) (le_refl 4) _ (by decide)).1 (by decide)).1

/-- Writing inside a read re-entry. -/
def writeReadWrite : Nest := .pair .read (.pair .write .done .done) .done

/-- Write, read, write: the inner `WriteUnlock` crashes although the thread is
the owner and releases its latest hold. -/
theorem recursive_entry_read_write :
    (Nest.pair .write writeReadWrite .done).depth = 3 ∧
      callAll 7 4 (fun _ _ => 0) {} (Nest.pair .write writeReadWrite .done).ops =
        some (.error .invalidUnlockOrder) := by
  decide

end Lock

end CppServer
