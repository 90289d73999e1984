import CppServer.Base.Counting
import CppServer.Lock.System

namespace CppServer.Lock

/-- The id in the upper half of the flag. -/
def high (lock : Lock) : ℕ := lock.lockFlag.toNat / 65536

/-- The count in the lower half of the flag. -/
def low (lock : Lock) : ℕ := lock.lockFlag.toNat % 65536

theorem high_desired (lock : Lock) {lThreadId : BitVec 32} (hnarrow : lThreadId.toNat ≤ 65535) :
    high { lock with lockFlag := desired lThreadId } = lThreadId.toNat := by
  simp only [high, desired_toNat]
  omega

theorem low_desired (lock : Lock) (lThreadId : BitVec 32) :
    low { lock with lockFlag := desired lThreadId } = 0 := by
  simp only [low, desired_toNat]
  omega

theorem flag_add_one (flag : BitVec 32) : (flag + 1).toNat = (flag.toNat + 1) % 4294967296 := by
  simp [BitVec.toNat_add]

theorem flag_sub_one (flag : BitVec 32) :
    (flag - 1).toNat = (flag.toNat + 4294967295) % 4294967296 := by
  simp [BitVec.toNat_sub, Nat.add_comm]

theorem count_add_one (count : BitVec 16) : (count + 1).toNat = (count.toNat + 1) % 65536 := by
  simp [BitVec.toNat_add]

theorem count_sub_one (count : BitVec 16) : (count - 1).toNat = (count.toNat + 65535) % 65536 := by
  simp [BitVec.toNat_sub, Nat.add_comm]

/-- Counting one more reader stays in the lower half as long as it has room. -/
theorem fields_add_one (lock : Lock) (hroom : low lock < 65535) :
    high { lock with lockFlag := lock.lockFlag + 1 } = high lock ∧
      low { lock with lockFlag := lock.lockFlag + 1 } = low lock + 1 := by
  have hbound := lock.lockFlag.isLt
  simp only [high, low, flag_add_one] at *
  omega

/-- A full reader field carries into the id. -/
theorem fields_add_one_full (lock : Lock) (hfull : low lock = 65535) :
    high { lock with lockFlag := lock.lockFlag + 1 } = (high lock + 1) % 65536 ∧
      low { lock with lockFlag := lock.lockFlag + 1 } = 0 := by
  have hbound := lock.lockFlag.isLt
  simp only [high, low, flag_add_one] at *
  omega

theorem fields_sub_one (lock : Lock) (hpositive : 0 < low lock) :
    high { lock with lockFlag := lock.lockFlag - 1 } = high lock ∧
      low { lock with lockFlag := lock.lockFlag - 1 } = low lock - 1 := by
  have hbound := lock.lockFlag.isLt
  simp only [high, low, flag_sub_one] at *
  omega

theorem high_empty (lock : Lock) : high { lock with lockFlag := emptyFlag } = 0 := by
  simp [high, emptyFlag]

theorem low_empty (lock : Lock) : low { lock with lockFlag := emptyFlag } = 0 := by
  simp [low, emptyFlag]

/-- The thread has the lock for writing: it has a write hold, or it has won
the exchange of its first one. -/
def Owns (pc : Pc) (holds : List Hold) : Prop := 0 < writes holds ∨ pc = .writeLockAcquired

/-- `WriteUnlock` counts the hold down one step before the store that returns. -/
def released : Pc → ℕ
  | .writeUnlockStore => 1
  | _ => 0

/-- What a thread's place in the code says about its holds and, where the code
has tested it, about the readers. -/
def Control (readers : ℕ) (holds : List Hold) : Pc → Prop
  | .writeLockReenter | .readLockReenter => 0 < writes holds
  | .writeLockAcquired => writes holds = 0
  | .readLockSpin _ _ expected => expected.toNat < 65536
  | .writeUnlockCheck => holds.head? = some .write
  | .writeUnlockCount => holds.head? = some .write ∧ readers = 0
  | .writeUnlockStore => holds.head? = some .write ∧ readers = 0 ∧ writes holds = 1
  | .readUnlockSub => holds.head? = some .read
  | _ => True

/-- The invariant of one thread against the shared lock. A thread that does not
own a write-locked lock has no read holds. -/
structure ThreadInv (lock : Lock) (readers id : ℕ) (pc : Pc) (holds : List Hold) : Prop where
  owner : high lock = id ↔ Owns pc holds
  guest : ¬ Owns pc holds → high lock ≠ 0 → reads holds = 0
  depth : Owns pc holds → lock.writeCount.toNat = (writes holds - released pc) % 65536
  control : Control readers holds pc

/-- The condition under which no counter of the lock leaves its field: a read
acquisition finds room in the lower half, and a `WriteUnlock` that counts down
to zero modulo 2^16 closes the outermost write hold. -/
def NoWrap (lock : Lock) (readers : ℕ) (holds : List Hold) : Pc → Prop
  | .readLockReenter => readers < 65535
  | .readLockSpin _ _ expected => lock.lockFlag = expected → readers < 65535
  | .writeUnlockCount => writes holds % 65536 = 1 → writes holds = 1
  | _ => True

/-- How a step of the thread with this id may change what the others see:
nothing, or a lock that is free or its own before and after. -/
def Contained (lock lock' : Lock) (readers readers' id : ℕ) : Prop :=
  (lock' = lock ∧ readers' = readers) ∨
    ((high lock = 0 ∨ high lock = id) ∧ (high lock' = 0 ∨ high lock' = id) ∧
      (high lock' ≠ 0 → high lock ≠ 0 ∨ readers = 0))

/-- Only an owner's place in the code speaks about the readers of others. -/
theorem Control.of_not_owns {readers readers' : ℕ} {pc : Pc} {holds : List Hold}
    (hcontrol : Control readers holds pc) (hnot : ¬ Owns pc holds) : Control readers' holds pc := by
  cases pc with
  | writeUnlockCount => exact absurd (.inl (writes_pos_of_head hcontrol.1)) hnot
  | writeUnlockStore => exact absurd (.inl (writes_pos_of_head hcontrol.1)) hnot
  | _ => exact hcontrol

/-- The invariant of another thread survives a contained step. -/
theorem ThreadInv.other {lock lock' : Lock} {readers readers' id id' : ℕ} {pc : Pc}
    {holds : List Hold} (hinv : ThreadInv lock readers id pc holds)
    (hchange : Contained lock lock' readers readers' id') (hne : id ≠ id') (hpositive : 0 < id)
    (hreads : reads holds ≤ readers) :
    ThreadInv lock' readers' id pc holds := by
  obtain ⟨howner, hguest, hdepth, hcontrol⟩ := hinv
  rcases hchange with ⟨rfl, rfl⟩ | ⟨hbefore, hafter, hquiet⟩
  · exact ⟨howner, hguest, hdepth, hcontrol⟩
  · have hnot : ¬ Owns pc holds := by
      rw [← howner]
      omega
    refine ⟨⟨fun h => by omega, fun h => absurd h hnot⟩, ?_, fun h => absurd h hnot, ?_⟩
    · intro _ hhigh
      rcases hquiet hhigh with h | h
      · exact hguest hnot h
      · omega
    · exact hcontrol.of_not_owns hnot

/-- The part of the invariant that every thread shares. -/
structure Shared (lock : Lock) (readers : ℕ) : Prop where
  low : low lock = readers
  free : high lock = 0 → lock.writeCount.toNat = 0

/-- What one step of one thread establishes. -/
structure Kept (lock lock' : Lock) (readers readers' id : ℕ) (pc' : Pc) (holds' : List Hold) :
    Prop where
  inv : ThreadInv lock' readers' id pc' holds'
  shared : Shared lock' readers'
  contained : Contained lock lock' readers readers' id

section Step

variable {lock lock' : Lock} {readers readers' : ℕ} {lThreadId : BitVec 32} {tick : BitVec 64}
  {pc pc' : Pc} {holds : List Hold}

/-- A step inside a call that leaves the lock alone keeps the invariant if the
thread owns the lock at the new place as it did at the old one. -/
theorem kept_of_inside {id : ℕ} (hinv : ThreadInv lock readers id pc holds)
    (hshared : Shared lock readers) (hnext : pc' ≠ .idle)
    (hreaders : readers' + reads holds = readers + reads (settled pc pc' holds))
    (howns : Owns pc' holds ↔ Owns pc holds) (hreleased : released pc' = released pc)
    (hcontrol : Control readers holds pc') :
    Kept lock lock readers readers' id pc' (settled pc pc' holds) := by
  rw [settled_of_ne holds hnext] at hreaders ⊢
  obtain rfl : readers' = readers := by omega
  exact
    { inv :=
        { owner := hinv.owner.trans howns.symm
          guest := fun hnot => hinv.guest (fun h => hnot (howns.mpr h))
          depth := fun h => by rw [hreleased]; exact hinv.depth (howns.mp h)
          control := hcontrol }
      shared := hshared
      contained := .inl ⟨rfl, rfl⟩ }

/-- Returning from a write acquisition: the count follows the new hold. -/
theorem kept_of_write_return {id : ℕ} (hpositive : 0 < id)
    (hinv : ThreadInv lock readers id pc holds) (hshared : Shared lock readers)
    (howns : Owns pc holds) (hreleased : released pc = 0)
    (hreaders : readers' + reads holds = readers + reads (.write :: holds)) :
    Kept lock { lock with writeCount := lock.writeCount + 1 } readers readers' id .idle
      (.write :: holds) := by
  obtain rfl : readers' = readers := by simpa using hreaders
  have hhigh : high lock = id := hinv.owner.mpr howns
  have hdepth := hinv.depth howns
  rw [hreleased] at hdepth
  refine ⟨⟨?_, ?_, ?_, trivial⟩, ⟨hshared.low, ?_⟩, .inr ⟨.inr hhigh, .inr hhigh, ?_⟩⟩
  · exact ⟨fun _ => .inl (by simp), fun _ => hhigh⟩
  · intro hnot
    exact absurd (.inl (by simp)) hnot
  · intro _
    change (lock.writeCount + 1).toNat = (writes (.write :: holds) - 0) % 65536
    rw [count_add_one, hdepth, writes_write]
    omega
  · intro hzero
    have : high lock = 0 := hzero
    omega
  · intro _
    left
    omega

/-- Returning from a read acquisition: the reader field has room and follows
the new hold, on a lock that is free or the caller's own. -/
theorem kept_of_read_return {id : ℕ} (hinv : ThreadInv lock readers id pc holds)
    (hshared : Shared lock readers) (hpc : pc ≠ .writeLockAcquired) (hreleased : released pc = 0)
    (hside : high lock = 0 ∨ high lock = id) (hroom : readers < 65535)
    (hreaders : readers' + reads holds = readers + reads (.read :: holds)) :
    Kept lock { lock with lockFlag := lock.lockFlag + 1 } readers readers' id .idle
      (.read :: holds) := by
  obtain rfl : readers' = readers + 1 := by
    simp only [reads_read] at hreaders
    omega
  have hlow := hshared.low
  obtain ⟨hhigh', hlow'⟩ := fields_add_one lock (by omega)
  have howns : Owns .idle (.read :: holds) ↔ Owns pc holds := by simp [Owns, hpc]
  refine ⟨⟨?_, ?_, ?_, trivial⟩, ⟨by rw [hlow', hlow], ?_⟩, .inr ⟨hside, ?_, ?_⟩⟩
  · rw [hhigh', howns]
    exact hinv.owner
  · intro hnot hne
    rw [hhigh'] at hne
    rw [howns] at hnot
    rcases hside with h | h
    · exact absurd h hne
    · exact absurd (hinv.owner.mp h) hnot
  · intro h
    have hdepth := hinv.depth (howns.mp h)
    rw [hreleased] at hdepth
    simpa [released] using hdepth
  · rw [hhigh']
    exact hshared.free
  · rw [hhigh']
    exact hside
  · rw [hhigh']
    exact .inl

/-- The exchange that takes a free lock for writing. -/
theorem kept_of_exchange (hpositive : 0 < lThreadId.toNat) (hnarrow : lThreadId.toNat ≤ 65535)
    (hinv : ThreadInv lock readers lThreadId.toNat pc holds) (hshared : Shared lock readers)
    (hempty : lock.lockFlag = emptyFlag) :
    Kept lock { lock with lockFlag := desired lThreadId } readers readers lThreadId.toNat
      .writeLockAcquired holds := by
  have hflag := (eq_emptyFlag_iff _).mp hempty
  have hhigh : high lock = 0 := by simp [high, hflag]
  have hlow : readers = 0 := by simp [← hshared.low, low, hflag]
  have hwrites : writes holds = 0 := by
    by_contra hnot
    have := hinv.owner.mpr (.inl (Nat.pos_of_ne_zero hnot))
    omega
  have hcount := hshared.free hhigh
  have hhigh' := high_desired lock hnarrow
  refine ⟨⟨⟨fun _ => .inr rfl, fun _ => hhigh'⟩, ?_, ?_, hwrites⟩,
    ⟨by rw [low_desired, hlow], ?_⟩, .inr ⟨.inl hhigh, .inr hhigh', fun _ => .inr hlow⟩⟩
  · exact fun hnot => absurd (.inr rfl) hnot
  · intro _
    simp [hcount, hwrites]
  · rw [hhigh']
    omega

/-- Counting a write hold down by one, as `WriteUnlock` does: what the count then says
about the hold and the holds below it. -/
theorem count_sub_one_of_owner {id : ℕ} {rest : List Hold}
    (hinv : ThreadInv lock readers id .writeUnlockCount (.write :: rest)) :
    (lock.writeCount - 1).toNat = writes rest % 65536 := by
  rw [count_sub_one, hinv.depth (.inl (by simp))]
  simp only [writes_write, released]
  omega

/-- The outermost write hold is counted down; the store is still to come. -/
theorem kept_of_last_count {id : ℕ} {rest : List Hold} (hpositive : 0 < id)
    (hinv : ThreadInv lock readers id .writeUnlockCount (.write :: rest))
    (hshared : Shared lock readers) (hlast : writes (.write :: rest) = 1) :
    Kept lock { lock with writeCount := lock.writeCount - 1 } readers readers id
      .writeUnlockStore (.write :: rest) := by
  have hhigh : high lock = id := hinv.owner.mpr (.inl (by simp))
  refine ⟨⟨⟨fun _ => .inl (by simp), fun _ => hhigh⟩, ?_, ?_, ⟨rfl, hinv.control.2, hlast⟩⟩,
    ⟨hshared.low, ?_⟩, .inr ⟨.inr hhigh, .inr hhigh, fun h => .inl h⟩⟩
  · exact fun hnot => absurd (.inl (by simp)) hnot
  · intro _
    simp only [count_sub_one_of_owner hinv, writes_write, released]
    omega
  · intro h
    have : high lock = 0 := h
    omega

/-- An inner write hold is counted down, which ends the call. -/
theorem kept_of_inner_count {id : ℕ} {rest : List Hold} (hpositive : 0 < id)
    (hinv : ThreadInv lock readers id .writeUnlockCount (.write :: rest))
    (hshared : Shared lock readers) (hmore : 0 < writes rest) :
    Kept lock { lock with writeCount := lock.writeCount - 1 } readers readers id .idle rest := by
  have hhigh : high lock = id := hinv.owner.mpr (.inl (by simp))
  refine ⟨⟨⟨fun _ => .inl hmore, fun _ => hhigh⟩, ?_, ?_, trivial⟩,
    ⟨hshared.low, ?_⟩, .inr ⟨.inr hhigh, .inr hhigh, fun h => .inl h⟩⟩
  · exact fun hnot => absurd (.inl hmore) hnot
  · intro _
    simpa [released] using count_sub_one_of_owner hinv
  · intro h
    have : high lock = 0 := h
    omega

/-- The store of `EMPTY_FLAG` that ends the outermost `WriteUnlock`. -/
theorem kept_of_store {id : ℕ} {rest : List Hold} (hpositive : 0 < id)
    (hinv : ThreadInv lock readers id .writeUnlockStore (.write :: rest)) :
    Kept lock { lock with lockFlag := emptyFlag } readers readers id .idle rest := by
  have hhigh : high lock = id := hinv.owner.mpr (.inl (by simp))
  have hlast : writes rest = 0 := by simpa using hinv.control.2.2
  have hcount := hinv.depth (.inl (by simp))
  have hnot : ¬ Owns .idle rest := by simp [Owns, hlast]
  refine ⟨⟨⟨?_, fun h => absurd h hnot⟩, ?_, fun h => absurd h hnot, trivial⟩,
    ⟨by rw [low_empty, hinv.control.2.1], ?_⟩, .inr ⟨.inr hhigh, .inl (high_empty lock), ?_⟩⟩
  · rw [high_empty]
    omega
  · exact fun _ hne => absurd (high_empty lock) hne
  · intro _
    simpa [released, hlast] using hcount
  · exact fun hne => absurd (high_empty lock) hne

/-- Returning from a read release: one reader fewer, on a lock that is free or the
caller's own. -/
theorem kept_of_read_release {id : ℕ} {rest : List Hold}
    (hinv : ThreadInv lock (readers + 1) id .readUnlockSub (.read :: rest))
    (hshared : Shared lock (readers + 1)) :
    Kept lock { lock with lockFlag := lock.lockFlag - 1 } (readers + 1) readers id .idle rest := by
  have hlow := hshared.low
  obtain ⟨hhigh', hlow'⟩ := fields_sub_one lock (by omega)
  have howns : Owns .idle rest ↔ Owns .readUnlockSub (.read :: rest) := by simp [Owns]
  have hside : high lock = 0 ∨ high lock = id := by
    by_contra hnot
    have h := hinv.guest (fun h => hnot (.inr (hinv.owner.mpr h))) (fun h => hnot (.inl h))
    simp at h
  refine ⟨⟨?_, ?_, ?_, trivial⟩, ⟨by omega, ?_⟩, .inr ⟨hside, ?_, ?_⟩⟩
  · rw [hhigh']
    exact hinv.owner.trans howns.symm
  · intro hnot hne
    rw [hhigh'] at hne
    have h := hinv.guest (fun h => hnot (howns.mpr h)) hne
    simp at h
  · intro h
    simpa [released] using hinv.depth (howns.mp h)
  · rw [hhigh']
    exact hshared.free
  · rw [hhigh']
    exact hside
  · rw [hhigh']
    exact .inl

/-- Every step of a thread keeps the invariant, provided the step wraps no
counter. -/
theorem step_keeps (hpositive : 0 < lThreadId.toNat) (hnarrow : lThreadId.toNat ≤ 65535)
    (hinv : ThreadInv lock readers lThreadId.toNat pc holds) (hshared : Shared lock readers)
    (hreads : reads holds ≤ readers) (hwrap : NoWrap lock readers holds pc)
    (hstep : Lock.step lThreadId tick lock pc = .ok (lock', pc'))
    (hreaders : readers' + reads holds = readers + reads (settled pc pc' holds)) :
    Kept lock lock' readers readers' lThreadId.toNat pc' (settled pc pc' holds) := by
  have hcontrol := hinv.control
  cases pc with
  | idle =>
    cases hstep
    obtain rfl : readers' = readers := by simpa [settled, Pc.op] using hreaders
    exact ⟨hinv, hshared, .inl ⟨rfl, rfl⟩⟩
  | writeLockOwner =>
    simp only [Lock.step] at hstep
    split at hstep
    case isTrue hid =>
      cases hstep
      have howns : 0 < writes holds := by
        simpa [Owns] using hinv.owner.mp ((eq_lockThreadId_iff _ _).mp hid)
      exact kept_of_inside hinv hshared (by simp) hreaders (by simp [Owns]) rfl howns
    case isFalse =>
      cases hstep
      exact kept_of_inside hinv hshared (by simp) hreaders (by simp [Owns]) rfl trivial
  | writeLockReenter =>
    cases hstep
    exact kept_of_write_return hpositive hinv hshared (.inl hcontrol) rfl hreaders
  | writeLockBegin =>
    cases hstep
    exact kept_of_inside hinv hshared (by simp) hreaders (by simp [Owns]) rfl trivial
  | writeLockSpin beginTick spinCount =>
    simp only [Lock.step] at hstep
    split at hstep
    case isTrue hempty =>
      cases hstep
      rw [settled_of_ne holds (by simp)] at hreaders ⊢
      obtain rfl : readers' = readers := by omega
      exact kept_of_exchange hpositive hnarrow hinv hshared hempty
    case isFalse =>
      split at hstep
      case isTrue =>
        cases hstep
        exact kept_of_inside hinv hshared (by simp) hreaders (by simp [Owns]) rfl trivial
      case isFalse =>
        cases hstep
        exact kept_of_inside hinv hshared (by simp) hreaders (by simp [Owns]) rfl trivial
  | writeLockAcquired =>
    cases hstep
    exact kept_of_write_return hpositive hinv hshared (.inr rfl) rfl hreaders
  | writeLockTimeout beginTick =>
    simp only [Lock.step] at hstep
    split at hstep <;> cases hstep
    exact kept_of_inside hinv hshared (by simp) hreaders (by simp [Owns]) rfl trivial
  | writeUnlockCheck =>
    simp only [Lock.step] at hstep
    split at hstep
    case isTrue => cases hstep
    case isFalse hzero =>
      cases hstep
      have hempty : readers = 0 := by
        have h := (readCount_eq_zero_iff _).mp (not_not.mp hzero)
        exact hshared.low.symm.trans h
      exact kept_of_inside hinv hshared (by simp) hreaders (by simp [Owns]) rfl ⟨hcontrol, hempty⟩
  | writeUnlockCount =>
    obtain ⟨rest, rfl⟩ := List.head?_eq_some_iff.mp hcontrol.1
    have hcount := count_sub_one_of_owner hinv
    simp only [Lock.step] at hstep
    split at hstep
    case isTrue hzero =>
      cases hstep
      rw [settled_of_ne _ (by simp)] at hreaders ⊢
      obtain rfl : readers' = readers := by omega
      apply kept_of_last_count hpositive hinv hshared
      apply hwrap
      rw [hzero] at hcount
      simp only [writes_write]
      simp at hcount
      omega
    case isFalse hzero =>
      cases hstep
      obtain rfl : readers' = readers := by simpa [settled, Pc.op, Op.settle] using hreaders
      apply kept_of_inner_count hpositive hinv hshared
      by_contra hnot
      apply hzero
      rw [← BitVec.toNat_inj, hcount, Nat.eq_zero_of_not_pos hnot]
      rfl
  | writeUnlockStore =>
    obtain ⟨rest, rfl⟩ := List.head?_eq_some_iff.mp hcontrol.1
    cases hstep
    obtain rfl : readers' = readers := by simpa [settled, Pc.op, Op.settle] using hreaders
    exact kept_of_store hpositive hinv
  | readLockOwner =>
    simp only [Lock.step] at hstep
    split at hstep
    case isTrue hid =>
      cases hstep
      have howns : 0 < writes holds := by
        simpa [Owns] using hinv.owner.mp ((eq_lockThreadId_iff _ _).mp hid)
      exact kept_of_inside hinv hshared (by simp) hreaders (by simp [Owns]) rfl howns
    case isFalse =>
      cases hstep
      exact kept_of_inside hinv hshared (by simp) hreaders (by simp [Owns]) rfl trivial
  | readLockReenter =>
    cases hstep
    have hhigh : high lock = lThreadId.toNat := hinv.owner.mpr (.inl hcontrol)
    exact kept_of_read_return hinv hshared (by simp) rfl (.inr hhigh) hwrap hreaders
  | readLockBegin =>
    cases hstep
    exact kept_of_inside hinv hshared (by simp) hreaders (by simp [Owns]) rfl trivial
  | readLockLoad beginTick spinCount =>
    cases hstep
    have hsmall : (readCount lock.lockFlag).toNat < 65536 := by
      rw [readCount_toNat]
      omega
    exact kept_of_inside hinv hshared (by simp) hreaders (by simp [Owns]) rfl hsmall
  | readLockSpin beginTick spinCount expected =>
    simp only [Lock.step] at hstep
    split at hstep
    case isTrue hequal =>
      cases hstep
      subst hequal
      have hfree : high lock = 0 := Nat.div_eq_of_lt hcontrol
      exact kept_of_read_return hinv hshared (by simp) rfl (.inl hfree) (hwrap rfl) hreaders
    case isFalse =>
      split at hstep
      case isTrue =>
        cases hstep
        exact kept_of_inside hinv hshared (by simp) hreaders (by simp [Owns]) rfl trivial
      case isFalse =>
        cases hstep
        exact kept_of_inside hinv hshared (by simp) hreaders (by simp [Owns]) rfl trivial
  | readLockTimeout beginTick =>
    simp only [Lock.step] at hstep
    split at hstep <;> cases hstep
    exact kept_of_inside hinv hshared (by simp) hreaders (by simp [Owns]) rfl trivial
  | readUnlockSub =>
    obtain ⟨rest, rfl⟩ := List.head?_eq_some_iff.mp hcontrol
    simp only [Lock.step] at hstep
    split at hstep
    case isTrue => cases hstep
    case isFalse =>
      cases hstep
      obtain rfl : readers = readers' + 1 := by
        simp only [settled, Pc.op, Op.settle, List.tail_cons, reads_read] at hreaders
        omega
      exact kept_of_read_release hinv hshared

end Step

end CppServer.Lock
