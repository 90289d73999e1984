import CppServer.Locks.Waiting

namespace CppServer.Locks

open Function Base Base.Graph Relation DeadLockProfiler

section Rank

/-- How many steps away the return is, for a thread that nobody blocks. -/
def rank (lock : Lock) : Pc → ℕ
  | .idle => 0
  | .writeLockReenter | .writeLockAcquired | .writeUnlockStore | .readLockReenter
  | .readUnlockSub => 1
  | .writeLockSpin _ _ | .writeUnlockCount | .readLockLoad _ _ => 2
  | .writeLockBegin | .writeLockTimeout _ | .writeUnlockCheck | .readLockBegin
  | .readLockTimeout _ => 3
  | .writeLockOwner | .readLockOwner => 4
  | .readLockSpin _ _ expected => if lock.lockFlag = expected then 1 else 4

variable {lock lock' : Lock} {lThreadId : BitVec 32} {tick : BitVec 64} {readers : ℕ}
  {holds : List Hold} {pc pc' : Pc}

theorem idle_of_rank (hrank : rank lock pc = 0) : pc = .idle := by
  cases pc with
  | idle => rfl
  | readLockSpin _ _ expected =>
    simp only [rank] at hrank
    split at hrank <;> omega
  | _ => cases hrank

/-- A thread that nobody blocks does not block itself. -/
theorem not_blocked_step (hstep : Lock.step lThreadId tick lock pc = .ok (lock', pc'))
    (hfree : ¬ Blocked lock holds pc) (hnext : pc' ≠ .idle) : ¬ Blocked lock' holds pc' := by
  have hop := Lock.op_step hstep hnext
  rintro ⟨hwrite, hblocked⟩
  rw [hop] at hblocked
  cases pc <;> simp only [Lock.step] at hstep
  all_goals
    repeat' split at hstep
    all_goals cases hstep
    all_goals simp_all [Blocked, Pc.op]

/-- A thread that nobody blocks comes nearer to its return with its next step, unless an
acquisition gives up. -/
theorem exists_step (hinv : Lock.ThreadInv lock readers lThreadId.toNat pc holds)
    (hshared : Lock.Shared lock readers) (hreads : Lock.reads holds ≤ readers)
    (hguest : Lock.Guest holds pc) (hfree : ¬ Blocked lock holds pc)
    (hclear : pc.op = some .writeUnlock → readers = 0) (hpc : pc ≠ .idle) :
    ∃ tick lock' pc', Lock.step lThreadId tick lock pc = .ok (lock', pc') ∧
      rank lock' pc' < rank lock pc := by
  have hwriter (hop : pc.op = some .writeLock) (hne : pc ≠ .writeLockAcquired)
      (hwrite : .write ∉ holds) : lock.lockFlag = emptyFlag := by
    by_contra hflag
    exact hfree ⟨hwrite, .inl ⟨hop, hne, hflag⟩⟩
  have hreader (hop : pc.op = some .readLock) (hwrite : .write ∉ holds) :
      lock.lockFlag = readCount lock.lockFlag := by
    have hhigh : Lock.high lock = 0 := by
      by_contra hhigh
      exact hfree ⟨hwrite, .inr ⟨hop, hhigh⟩⟩
    rw [← BitVec.toNat_inj, readCount_toNat]
    simp only [Lock.high] at hhigh
    omega
  have hlow : Lock.low lock = readers := hshared.low
  have hcontrol := hinv.control
  cases pc with
  | idle => exact absurd rfl hpc
  | writeLockOwner =>
    by_cases hid : lThreadId = lockThreadId lock.lockFlag
    · exact ⟨0, _, _, if_pos hid, by simp [rank]⟩
    · exact ⟨0, _, _, if_neg hid, by simp [rank]⟩
  | writeLockReenter | writeLockBegin | writeLockAcquired | writeUnlockStore | readLockReenter
  | readLockBegin => exact ⟨0, _, _, rfl, by simp [rank]⟩
  | writeLockSpin beginTick spinCount =>
    exact ⟨0, _, _, if_pos (hwriter rfl (by simp) hguest), by simp [rank]⟩
  | writeLockTimeout beginTick | readLockTimeout beginTick =>
    -- the clock still shows the tick at which the call began
    refine ⟨beginTick, _, _, if_neg ?_, by simp [rank]⟩
    rw [BitVec.sub_self]
    decide
  | writeUnlockCheck =>
    have hcount : readCount lock.lockFlag = 0 := by
      rw [readCount_eq_zero_iff]
      exact hlow.trans (hclear rfl)
    exact ⟨0, _, _, if_neg (not_not_intro hcount), by simp [rank]⟩
  | writeUnlockCount =>
    refine ⟨0, _, _, rfl, ?_⟩
    split <;> simp [rank]
  | readLockOwner =>
    by_cases hid : lThreadId = lockThreadId lock.lockFlag
    · exact ⟨0, _, _, if_pos hid, by simp [rank]⟩
    · exact ⟨0, _, _, if_neg hid, by simp [rank]⟩
  | readLockLoad beginTick spinCount =>
    refine ⟨0, _, _, rfl, ?_⟩
    simp only [rank]
    rw [if_pos (hreader rfl hguest)]
    omega
  | readLockSpin beginTick spinCount expected =>
    by_cases hequal : lock.lockFlag = expected
    · exact ⟨0, _, _, if_pos hequal, by simp [rank, hequal]⟩
    · by_cases hspin : spinCount + 1 < maxSpinCount
      · exact ⟨0, lock, .readLockLoad beginTick (spinCount + 1), by simp [Lock.step, hequal, hspin],
          by simp [rank, hequal]⟩
      · exact ⟨0, lock, .readLockTimeout beginTick, by simp [Lock.step, hequal, hspin],
          by simp [rank, hequal]⟩
  | readUnlockSub =>
    obtain ⟨rest, rfl⟩ := List.head?_eq_some_iff.mp hcontrol
    have hcount : readCount lock.lockFlag ≠ 0 := by
      rw [Ne, readCount_eq_zero_iff]
      change ¬ Lock.low lock = 0
      rw [Lock.reads_read] at hreads
      omega
    exact ⟨0, _, _, if_neg hcount, by simp [rank]⟩

end Rank

section Holds

variable {L : Type}

/-- No read hold is under a write hold of the same lock. -/
def Tidy : List (L × Hold) → Prop
  | [] => True
  | (l, .write) :: rest => (l, .read) ∉ rest ∧ Tidy rest
  | (_, .read) :: rest => Tidy rest

/-- The holds of a thread once the acquisition that it is in, if any, has returned. -/
def claimed (holds : List (L × Hold)) (place : Place L) : List (L × Hold) :=
  match place.call with
  | some (l, .writeLock) => (l, .write) :: holds
  | some (l, .readLock) => (l, .read) :: holds
  | some (_, .writeUnlock) | some (_, .readUnlock) | none => holds

variable {holds : List (L × Hold)} {l : L}

theorem Tidy.tail (htidy : Tidy holds) : Tidy holds.tail := by
  cases holds with
  | nil => trivial
  | cons hold rest =>
    obtain ⟨l, kind⟩ := hold
    cases kind with
    | write => exact htidy.2
    | read => exact htidy

theorem Tidy.settle {before : L → L → Prop} {op : Op} (htidy : Tidy holds)
    (hlawful : Lawful before holds l op) : Tidy (settle l op holds) := by
  cases op with
  | writeLock => exact ⟨hlawful.1, htidy⟩
  | readLock => exact htidy
  | writeUnlock | readUnlock => exact htidy.tail

theorem sublist_claimed (holds : List (L × Hold)) (place : Place L) :
    holds.Sublist (claimed holds place) := by
  unfold claimed
  split
  · exact List.sublist_cons_self ..
  · exact List.sublist_cons_self ..
  · exact List.Sublist.refl _
  · exact List.Sublist.refl _
  · exact List.Sublist.refl _

/-- A call gives its caller no more than it claimed. -/
theorem settle_sublist_claimed {place : Place L} {op : Op} (hcall : place.call = some (l, op)) :
    (settle l op holds).Sublist (claimed holds place) := by
  simp only [claimed, hcall]
  cases op with
  | writeLock | readLock => exact List.Sublist.refl _
  | writeUnlock | readUnlock => exact List.tail_sublist _

end Holds

variable {T L Name : Type} [DecidableEq L] [Fintype T]

/-- The bounds on use hold for each lock with the acquisitions that have not returned. -/
def Threads.WithinRoom (s : Threads T L Name) : Prop :=
  ∀ l, ∑ t, Lock.reads (ofLock l (claimed (s.holds t) (s.place t))) ≤ 65535 ∧
    ∀ t, Lock.writes (ofLock l (claimed (s.holds t) (s.place t))) ≤ 65535

instance [Fintype L] (s : Threads T L Name) : Decidable s.WithinRoom :=
  inferInstanceAs (Decidable (∀ _, _ ∧ _))

variable {s s' : Threads T L Name} {t : T} {l : L}

omit [Fintype T] in
theorem count_ofLock_le {holds holds' : List (L × Hold)} (hsub : holds.Sublist holds') (l : L)
    (hold : Hold) : (ofLock l holds).count hold ≤ (ofLock l holds').count hold :=
  (hsub.filterMap _).count_le hold

theorem Threads.WithinRoom.limits (hroom : s.WithinRoom) : s.WithinLimits := by
  intro l
  have hle (t : T) (hold : Hold) := count_ofLock_le (sublist_claimed (s.holds t) (s.place t)) l hold
  obtain ⟨hreads, hwrites⟩ := hroom l
  exact ⟨(Finset.sum_le_sum fun t _ => hle t .read).trans hreads,
    fun t => (hle t .write).trans (hwrites t)⟩

/-- Whoever claims no more than before leaves the bounds as they are. -/
theorem Moved.room [DecidableEq T] {place : Place L} {holds : List (L × Hold)}
    (hmoved : Moved s s' t place holds) (hroom : s.WithinRoom)
    (hsub : (claimed holds place).Sublist (claimed (s.holds t) (s.place t))) : s'.WithinRoom := by
  have hclaimed (u : T) :
      (claimed (s'.holds u) (s'.place u)).Sublist (claimed (s.holds u) (s.place u)) :=
    hmoved.forall
      (Q := fun u place holds => (claimed holds place).Sublist (claimed (s.holds u) (s.place u)))
      (fun _ _ => List.Sublist.refl _) hsub u
  intro l
  have hle (u : T) (hold : Hold) := count_ofLock_le (hclaimed u) l hold
  obtain ⟨hreads, hwrites⟩ := hroom l
  exact ⟨(Finset.sum_le_sum fun u _ => hle u .read).trans hreads,
    fun u => (hle u .write).trans (hwrites u)⟩

/-- The threads of the release build in a state of a run by the rules. -/
structure Orderly (ids : ThreadIds T) (before : L → L → Prop) (s : Threads T L Name) : Prop where
  sound : Sound ids s
  obeying : ∀ t, Obeying before (s.holds t) (s.place t)
  tidy : ∀ t, Tidy (s.holds t)
  release : ∀ t l op, s.place t ≠ .profile l op
  room : s.WithinRoom

variable [DecidableEq T] [DecidableEq Name] {ids : ThreadIds T} {name : L → Name}
  {before : L → L → Prop} {a : Act T L}

theorem Orderly.step (horderly : Orderly ids before s) (hchange : Change ids name false s a s')
    (hobeys : s.Obeys before a) (hroom : s'.WithinRoom) : Orderly ids before s' where
  sound := horderly.sound.step hchange hroom.limits
  obeying := obeying_step horderly.obeying hchange hobeys
  tidy u := by
    cases hchange with
    | crash fault hnext =>
      subst hnext
      exact horderly.tidy u
    | enter t l op _ _ _ hmoved =>
      exact hmoved.forall (Q := fun _ _ holds => Tidy holds) (fun v _ => horderly.tidy v)
        (horderly.tidy t) u
    | profile t l op hplace => exact absurd hplace (horderly.release t l op)
    | code t l tick pc next hplace hstep hmoved =>
      refine hmoved.forall (Q := fun _ _ holds => Tidy holds) (fun v _ => horderly.tidy v) ?_ u
      by_cases hnext : next = .idle
      · obtain ⟨op, hop, -⟩ := within_code horderly.sound.within hplace
        subst hnext
        rw [settled_idle hop]
        exact (horderly.tidy t).settle (horderly.obeying t l op (by simp [hplace, hop]))
      · rw [settled_of_ne hnext]
        exact horderly.tidy t
  release u l' op' := by
    cases hchange with
    | crash fault hnext =>
      subst hnext
      exact horderly.release u l' op'
    | enter t l op _ _ _ hmoved =>
      exact hmoved.forall (Q := fun _ place _ => place ≠ .profile l' op')
        (fun v _ => horderly.release v l' op') (by simp [Place.enter]) u
    | profile t l op hplace => exact absurd hplace (horderly.release t l op)
    | code t l tick pc next hplace hstep hmoved =>
      refine hmoved.forall (Q := fun _ place _ => place ≠ .profile l' op')
        (fun v _ => horderly.release v l' op') ?_ u
      split <;> simp
  room := hroom

omit [DecidableEq T] [DecidableEq Name] in
/-- Nobody reads a lock that a thread is about to leave as its writer. -/
theorem Orderly.clear (horderly : Orderly ids before s) {pc : Pc} (hplace : s.place t = .code l pc)
    (hop : pc.op = some .writeUnlock) : (s.view l).readers = 0 := by
  obtain ⟨op, hop', hallowed⟩ := within_code horderly.sound.within hplace
  rw [hop] at hop'
  cases hop'
  obtain ⟨rest, hrest⟩ := List.head?_eq_some_iff.mp hallowed
  have hholds : (s.view l).holds t = .write :: ofLock l rest := by
    simp [Threads.view, hrest]
  have htidy := horderly.tidy t
  rw [hrest] at htidy
  have hnone : Lock.reads (ofLock l rest) = 0 := by
    refine Nat.eq_zero_of_not_pos fun hpos => htidy.1 ?_
    exact mem_ofLock.mp (Lock.mem_read_iff.mpr hpos)
  have hinv := horderly.sound.inv l
  have hhigh : Lock.high (s.lock l) = (ids.lThreadId t).toNat := by
    refine (hinv.thread t).owner.mpr (.inl ?_)
    rw [hholds]
    simp
  rw [hinv.readers_eq hhigh, hholds, Lock.reads_write, hnone]

/-- What a thread still has to do in the code of a lock. -/
def remaining (s : Threads T L Name) (t : T) : ℕ :=
  match s.place t with
  | .code l pc => rank (s.lock l) pc
  | .outside | .profile _ _ => 0

/-- A label that begins no acquisition: a call of an unlock function, or a step inside of a call. -/
def Act.Releases : Act T L → Prop
  | .call _ _ op => op = .writeUnlock ∨ op = .readUnlock
  | .run _ _ => True

/-- A thread is still in the call that it made in `s`, where nobody blocks it, or has returned. -/
def Underway (s s' : Threads T L Name) (t : T) (l : L) (op : Op) : Prop :=
  Moved s s' t .outside (settle l op (s.holds t)) ∨
    ∃ pc, Moved s s' t (.code l pc) (s.holds t) ∧ pc.op = some op ∧
      ¬ Blocked (s'.lock l) (ofLock l (s.holds t)) pc

/-- A thread in a call that it does not wait in can take a step that brings it nearer to its
return. -/
theorem Orderly.advance (horderly : Orderly ids before s) (name : L → Name) (hcrashed : s.crashed = none) {pc : Pc}
    {op : Op} (hplace : s.place t = .code l pc) (hop : pc.op = some op)
    (hfree : ¬ Blocked (s.lock l) (ofLock l (s.holds t)) pc) :
    ∃ a s', Threads.step ids name false s a = some s' ∧ a.Releases ∧
      (Orderly ids before s' ∧ s'.crashed = none ∧ Underway s s' t l op) ∧
      remaining s' t < remaining s t := by
  have hpc : (s.view l).pc t = pc := by simp [Threads.view, hplace]
  have hinv := (horderly.sound.inv l).thread t
  have hguest := horderly.sound.guest l t
  rw [hpc] at hinv hguest
  have hbusy : pc ≠ .idle := by
    rintro rfl
    cases hop
  have hreads : Lock.reads ((s.view l).holds t) ≤ (s.view l).readers :=
    Counting.le_total (fun u => Lock.reads ((s.view l).holds u)) t
  obtain ⟨tick, lock', next, hlock, hrank⟩ : ∃ tick lock' next,
      Lock.step (ids.lThreadId t) tick (s.lock l) pc = .ok (lock', next) ∧
        rank lock' next < rank (s.lock l) pc :=
    exists_step hinv (horderly.sound.inv l).shared hreads hguest hfree
      (fun hop => horderly.clear hplace hop) hbusy
  have hstep : Threads.step ids name false s (.run t tick) = some (s.after t l pc lock' next) := by
    simp only [Threads.step, hcrashed, hplace, hlock, if_true]
  have hmoved : Moved s (s.after t l pc lock' next) t
      (if next = .idle then .outside else .code l next) (settled l pc next (s.holds t)) := ⟨rfl, rfl⟩
  have hself : (s.after t l pc lock' next).lock l = lock' := by simp [Threads.after]
  have hbefore : remaining s t = rank (s.lock l) pc := by simp only [remaining, hplace]
  have hpositive : 0 < rank (s.lock l) pc := (Nat.zero_le _).trans_lt hrank
  by_cases hnext : next = .idle
  · subst hnext
    rw [if_pos rfl, settled_idle hop] at hmoved
    refine ⟨_, _, hstep, trivial, ⟨?_, hcrashed, .inl hmoved⟩, ?_⟩
    · refine horderly.step (change_of_step hstep) trivial (hmoved.room horderly.room ?_)
      exact settle_sublist_claimed (by simp [hplace, hop])
    · rw [hbefore]
      simpa [remaining, hmoved.place] using hpositive
  · have hsame := Lock.op_step hlock hnext
    rw [if_neg hnext, settled_of_ne hnext] at hmoved
    refine ⟨_, _, hstep, trivial, ⟨?_, hcrashed, .inr ⟨next, hmoved, hsame.trans hop, ?_⟩⟩, ?_⟩
    · refine horderly.step (change_of_step hstep) trivial (hmoved.room horderly.room ?_)
      rw [hplace]
      simp [claimed, hsame]
    · rw [hself]
      exact not_blocked_step hlock hfree hnext
    · rw [hbefore]
      simpa [remaining, hmoved.place, hself] using hrank

/-- A thread that does not wait can return from its call, nobody else moving. -/
theorem Orderly.complete (horderly : Orderly ids before s) (name : L → Name) (hcrashed : s.crashed = none) {pc : Pc}
    {op : Op} (hplace : s.place t = .code l pc) (hop : pc.op = some op)
    (hfree : ¬ Blocked (s.lock l) (ofLock l (s.holds t)) pc) :
    ∃ as s', (machine ids name false).exec s as = some s' ∧ (∀ a ∈ as, a.Releases) ∧
      Orderly ids before s' ∧ s'.crashed = none ∧ Moved s s' t .outside (settle l op (s.holds t)) := by
  have hself : Moved s s t (.code l pc) (s.holds t) := hplace ▸ moved_refl s t
  obtain ⟨as, s', hexec, has, ⟨horderly', hcrashed', hunderway⟩, hzero⟩ :=
    Machine.exists_exec_of_measure (M := machine ids name false)
      (fun r => Orderly ids before r ∧ r.crashed = none ∧ Underway s r t l op) Act.Releases
      (fun r => remaining r t)
      (fun r hr hpositive => by
        obtain ⟨horderly, hcrashed, hdone | ⟨pc, hmoved, hop, hfree⟩⟩ := hr
        · exact absurd (by simp [remaining, hdone.place]) hpositive
        · have hplace : r.place t = .code l pc := by simp [hmoved.place]
          have hholds : r.holds t = s.holds t := by simp [hmoved.holds]
          rw [← hholds] at hfree
          obtain ⟨a, r', hstep, ha, ⟨horderly', hcrashed', hunderway⟩, hless⟩ :=
            horderly.advance name hcrashed hplace hop hfree
          refine ⟨[a], r', (Machine.exec_singleton ..).trans hstep, by simpa using ha,
            ⟨horderly', hcrashed', ?_⟩, hless⟩
          rw [Underway, hholds] at hunderway
          exact hunderway.imp hmoved.trans fun ⟨pc, h, hrest⟩ => ⟨pc, hmoved.trans h, hrest⟩)
      ⟨horderly, hcrashed, .inr ⟨pc, hself, hop, hfree⟩⟩
  rcases hunderway with hdone | ⟨pc', hmoved, hop', -⟩
  · exact ⟨as, s', hexec, has, horderly', hcrashed', hdone⟩
  · have hrank : rank (s'.lock l) pc' = 0 := by
      simpa [remaining, hmoved.place] using hzero
    have hidle := idle_of_rank hrank
    rw [hidle] at hop'
    cases hop'

/-- What the threads still have to do until all have returned and released. -/
def weight (holds : List (L × Hold)) (place : Place L) : ℕ :=
  match place.call with
  | none => 2 * holds.length
  | some (l, op) => 2 * (settle l op holds).length + 1

omit [DecidableEq L] [Fintype T] [DecidableEq T] [DecidableEq Name] in
theorem eq_of_weight (hwithin : Within (s.holds t) (s.place t))
    (hzero : weight (s.holds t) (s.place t) = 0) : s.place t = .outside ∧ s.holds t = [] := by
  cases hplace : s.place t with
  | outside =>
    rw [hplace] at hzero
    exact ⟨rfl, List.eq_nil_of_length_eq_zero (by simpa [weight] using hzero)⟩
  | profile l op =>
    rw [hplace] at hzero
    simp [weight] at hzero
  | code l pc =>
    rw [hplace] at hwithin hzero
    obtain ⟨op, hop, -⟩ := hwithin
    simp [weight, hop] at hzero

omit [DecidableEq T] [DecidableEq Name] in
/-- Some thread that has something to do does not wait. -/
theorem Orderly.exists_active (horderly : Orderly ids before s) (hacyclic : Acyclic before)
    (hpositive : ∑ t, weight (s.holds t) (s.place t) ≠ 0) :
    ∃ t, wants s t = none ∧ (s.place t = .outside → s.holds t ≠ []) := by
  obtain ⟨t, -, ht⟩ := Finset.exists_ne_zero_of_sum_ne_zero hpositive
  by_cases hwants : wants s t = none
  · refine ⟨t, hwants, fun hplace hholds => ht ?_⟩
    simp [hplace, hholds, weight]
  · obtain ⟨-, hfree⟩ := horderly.sound.no_deadlock horderly.obeying hacyclic
      fun t => (horderly.obeying t).ordered
    obtain ⟨u, hpath, hu⟩ := hfree t hwants
    obtain ⟨_, -, l, -, hhas⟩ := TransGen.tail'_iff.mp hpath
    refine ⟨u, hu, fun hplace hholds => ?_⟩
    rcases hhas with hnil | hacquired
    · exact hnil (by simp [hholds, ofLock])
    · rw [hplace] at hacquired
      cases hacquired

omit [DecidableEq L] [DecidableEq Name] in
theorem Moved.sum_weight {place : Place L} {holds : List (L × Hold)}
    (hmoved : Moved s s' t place holds)
    (hless : weight holds place < weight (s.holds t) (s.place t)) :
    ∑ u, weight (s'.holds u) (s'.place u) < ∑ u, weight (s.holds u) (s.place u) := by
  have hself : weight (s'.holds t) (s'.place t) = weight holds place := by
    rw [hmoved.place, hmoved.holds, update_self, update_self]
  have hrest (u : T) (hu : u ≠ t) :
      weight (s'.holds u) (s'.place u) = weight (s.holds u) (s.place u) := by
    rw [hmoved.place, hmoved.holds, update_of_ne hu, update_of_ne hu]
  have h := Counting.total_change hrest
  rw [hself] at h
  omega

/-- The function that releases a hold. -/
def unlock : Hold → Op
  | .write => .writeUnlock
  | .read => .readUnlock

omit [DecidableEq L] [Fintype T] [DecidableEq T] [DecidableEq Name] in
theorem unlock_latest {holds rest : List (L × Hold)} {kind : Hold} (before : L → L → Prop)
    (hholds : holds = (l, kind) :: rest) :
    Allowed l (unlock kind) holds ∧ settle l (unlock kind) holds = rest ∧
      Lawful before holds l (unlock kind) ∧
      claimed holds (.enter false l (unlock kind)) = holds := by
  subst hholds
  cases kind with
  | write => exact ⟨rfl, rfl, trivial, rfl⟩
  | read => exact ⟨rfl, rfl, trivial, rfl⟩

/-- A thread that does not wait returns from its call, or calls the unlock function of its latest
hold. -/
theorem Orderly.progress (horderly : Orderly ids before s) (hcrashed : s.crashed = none)
    (hwants : wants s t = none) (hactive : s.place t = .outside → s.holds t ≠ []) :
    ∃ as s', (machine ids name false).exec s as = some s' ∧ (∀ a ∈ as, a.Releases) ∧
      (Orderly ids before s' ∧ s'.crashed = none) ∧
      ∑ u, weight (s'.holds u) (s'.place u) < ∑ u, weight (s.holds u) (s.place u) := by
  cases hplace : s.place t with
  | outside =>
    obtain ⟨⟨l, kind⟩, rest, hholds⟩ := List.exists_cons_of_ne_nil (hactive hplace)
    obtain ⟨hallowed, hsettle, hlawful, hclaimed⟩ := unlock_latest before hholds
    have hstep : (machine ids name false).step s (.call t l (unlock kind)) =
        some { s with place := update s.place t (.enter false l (unlock kind)) } :=
      if_pos ⟨hcrashed, hplace, hallowed⟩
    have hchange : Change ids name false s (.call t l (unlock kind)) _ := change_of_step hstep
    have hmoved : Moved s { s with place := update s.place t (.enter false l (unlock kind)) } t
        (.enter false l (unlock kind)) (s.holds t) := ⟨rfl, (update_eq_self ..).symm⟩
    have hreleases : (Act.call t l (unlock kind)).Releases := by
      cases kind with
      | write => exact .inl rfl
      | read => exact .inr rfl
    refine ⟨_, _, (Machine.exec_singleton ..).trans hstep, by simpa using hreleases, ⟨?_, hcrashed⟩,
      hmoved.sum_weight ?_⟩
    · refine horderly.step hchange hlawful (hmoved.room horderly.room ?_)
      rw [hclaimed]
      exact sublist_claimed ..
    · rw [hplace, weight, weight, call_enter, call_outside]
      simp only [hsettle]
      rw [hholds, List.length_cons]
      omega
  | profile l op => exact absurd hplace (horderly.release t l op)
  | code l pc =>
    obtain ⟨op, hop, -⟩ := within_code horderly.sound.within hplace
    have hfree : ¬ Blocked (s.lock l) (ofLock l (s.holds t)) pc := by
      intro hblocked
      rw [wants_eq_some_iff.mpr ⟨pc, hplace, hblocked⟩] at hwants
      cases hwants
    obtain ⟨as, s', hexec, has, horderly', hcrashed', hmoved⟩ :=
      horderly.complete name hcrashed hplace hop hfree
    refine ⟨as, s', hexec, has, ⟨horderly', hcrashed'⟩, hmoved.sum_weight ?_⟩
    simp [weight, hplace, hop]

omit [DecidableEq Name] in
theorem orderly_start (ids : ThreadIds T) : Orderly ids before ({} : Threads T L Name) where
  sound := sound_start ids
  obeying t l op hcall := by cases hcall
  tidy t := trivial
  release t l op := by simp
  room l := by simp [claimed, Place.call, ofLock, Lock.reads, Lock.writes]

theorem orderly_run {as : List (Act T L)}
    (hrun : (machine ids name false).Run (fun s a s' => s'.WithinRoom ∧ s.Obeys before a) as s) :
    Orderly ids before s := by
  refine hrun.invariant (orderly_start ids) ?_
  rintro s a s' horderly ⟨hroom, hobeys⟩ hstep
  exact horderly.step (change_of_step hstep) hobeys hroom

omit [DecidableEq T] [DecidableEq Name] in
/-- A lock that nobody has or is in is as new. -/
theorem Orderly.lock_eq (horderly : Orderly ids before s)
    (hdone : ∀ t, s.place t = .outside ∧ s.holds t = []) (l : L) : s.lock l = {} := by
  have hinv := horderly.sound.inv l
  have hreaders : (s.view l).readers = 0 := by
    refine Finset.sum_eq_zero fun t _ => ?_
    simp [Threads.view, (hdone t).2, ofLock, Lock.reads]
  have hhigh : Lock.high (s.view l).lock = 0 := by
    refine hinv.owned.resolve_right ?_
    rintro ⟨t, ht⟩
    rcases (hinv.thread t).owner.mp ht with hwrites | hacquired
    · simp [Threads.view, (hdone t).2, ofLock, Lock.writes] at hwrites
    · simp [Threads.view, (hdone t).1] at hacquired
  have hlow := hinv.shared.low.trans hreaders
  have hcount := hinv.shared.free hhigh
  have hflag : (s.lock l).lockFlag = emptyFlag := by
    rw [eq_emptyFlag_iff]
    change (s.lock l).lockFlag.toNat / 65536 = 0 at hhigh
    change (s.lock l).lockFlag.toNat % 65536 = 0 at hlow
    omega
  have hwriteCount : (s.lock l).writeCount = 0 := BitVec.eq_of_toNat_eq hcount
  calc
    s.lock l = ⟨(s.lock l).lockFlag, (s.lock l).writeCount⟩ := rfl
    _ = {} := by rw [hflag, hwriteCount]

/-- The release build does not deadlock. If the threads take the locks in an order without cycles
and no thread acquires a lock for writing that it reads, then from every state that they reach under
any interleaving within the bounds on use and without a crash, all of them can return from their
calls and release all that they have, without a call of `WriteLock` or `ReadLock`, and every lock is
as new then. -/
theorem release_drains (hacyclic : Acyclic before) {as : List (Act T L)}
    (hrun : (machine ids name false).Run (fun s a s' => s'.WithinRoom ∧ s.Obeys before a) as s)
    (hcrashed : s.crashed = none) :
    ∃ bs s', (machine ids name false).exec s bs = some s' ∧ (∀ b ∈ bs, b.Releases) ∧
      s'.crashed = none ∧ (∀ t, s'.place t = .outside ∧ s'.holds t = []) ∧ ∀ l, s'.lock l = {} := by
  obtain ⟨bs, s', hexec, hbs, ⟨horderly, hcrashed'⟩, hzero⟩ :=
    Machine.exists_exec_of_measure (M := machine ids name false)
      (fun s => Orderly ids before s ∧ s.crashed = none) Act.Releases
      (fun s => ∑ t, weight (s.holds t) (s.place t))
      (fun s hs hpositive => by
        obtain ⟨t, hwants, hactive⟩ := hs.1.exists_active hacyclic hpositive
        exact hs.1.progress hs.2 hwants hactive)
      ⟨orderly_run hrun, hcrashed⟩
  have hdone (t : T) : s'.place t = .outside ∧ s'.holds t = [] :=
    eq_of_weight (horderly.sound.within t) ((Finset.sum_eq_zero_iff.mp hzero) t (Finset.mem_univ t))
  exact ⟨bs, s', hexec, hbs, hcrashed', hdone, horderly.lock_eq hdone⟩

/-- A thread reads under one lock while it has the other one, for which the second thread waits. -/
def nestedBesideWriter (t u : T) (l l' : L) : List (Act T L) :=
  [.call t l .writeLock, .run t 0, .run t 0, .run t 0, .run t 0, .call u l .writeLock, .run u 0,
    .run u 0, .call t l' .readLock, .run t 0, .run t 0, .run u 0]

theorem release_drains_nested :
    ∃ s, (machine (L := Fin 2) Lock.twoIds (fun _ => ()) false).exec {}
        (nestedBesideWriter 0 1 0 1) = some s ∧
      wants s 1 = some 0 ∧
      ∃ bs s', (machine Lock.twoIds (fun _ => ()) false).exec s bs = some s' ∧
        (∀ b ∈ bs, b.Releases) ∧ s'.crashed = none ∧
        (∀ t, s'.place t = .outside ∧ s'.holds t = []) ∧ ∀ l, s'.lock l = {} := by
  have hend : ((machine Lock.twoIds (fun _ => ()) false).check
      (fun s a s' => s'.WithinRoom ∧ s.Obeys (fun l l' : Fin 2 => l < l') a) {}
      (nestedBesideWriter 0 1 0 1)).map (fun s => (wants s 1, s.crashed)) = some (some 0, none) := by
    decide
  obtain ⟨s, hcheck, hs⟩ := Option.map_eq_some_iff.mp hend
  obtain ⟨hwants, hcrashed⟩ := Prod.mk.inj hs
  have hrun := Machine.run_of_check hcheck
  have hacyclic : Acyclic fun l l' : Fin 2 => l < l' := acyclic_of_lt id fun _ _ => id
  exact ⟨s, hrun.exec_eq, hwants, release_drains hacyclic hrun hcrashed⟩

end CppServer.Locks
