import CppServer.Locks.System

namespace CppServer.Locks

open Function Base DeadLockProfiler

section Holds

variable {L : Type} [DecidableEq L] {l l' : L} {op : Op} {holds : List (L × Hold)}

@[simp] theorem ofLock_cons_self (hold : Hold) :
    ofLock l ((l, hold) :: holds) = hold :: ofLock l holds := by simp [ofLock]

@[simp] theorem ofLock_cons_of_ne (hne : l' ≠ l) (hold : Hold) :
    ofLock l ((l', hold) :: holds) = ofLock l holds := by simp [ofLock, hne]

theorem mem_ofLock {hold : Hold} : hold ∈ ofLock l holds ↔ (l, hold) ∈ holds := by
  simp only [ofLock, List.mem_filterMap, Option.ite_none_right_eq_some, Option.some.injEq]
  constructor
  · rintro ⟨⟨_, _⟩, hmem, rfl, rfl⟩
    exact hmem
  · exact fun hmem => ⟨_, hmem, rfl, rfl⟩

theorem Allowed.ofLock (hallowed : Allowed l op holds) : op.Allowed (ofLock l holds) := by
  cases op with
  | writeLock | readLock => trivial
  | writeUnlock | readUnlock =>
    obtain ⟨rest, rfl⟩ := List.head?_eq_some_iff.mp hallowed
    simp [Op.Allowed]

theorem Allowed.ofLock_settle (hallowed : Allowed l op holds) :
    Locks.ofLock l (settle l op holds) = op.settle (Locks.ofLock l holds) := by
  cases op with
  | writeLock | readLock => simp [settle, Op.settle]
  | writeUnlock | readUnlock =>
    obtain ⟨rest, rfl⟩ := List.head?_eq_some_iff.mp hallowed
    simp [settle, Op.settle]

theorem Allowed.ofLock_settle_of_ne (hallowed : Allowed l op holds) (hne : l ≠ l') :
    Locks.ofLock l' (settle l op holds) = Locks.ofLock l' holds := by
  cases op with
  | writeLock | readLock => simp [settle, hne]
  | writeUnlock | readUnlock =>
    obtain ⟨rest, rfl⟩ := List.head?_eq_some_iff.mp hallowed
    simp [settle, hne]

omit [DecidableEq L] in
theorem settled_of_ne {pc next : Pc} (hnext : next ≠ .idle) : settled l pc next holds = holds := by
  cases next with
  | idle => exact absurd rfl hnext
  | _ => rfl

omit [DecidableEq L] in
theorem settled_idle {pc : Pc} (hop : pc.op = some op) :
    settled l pc .idle holds = settle l op holds := by
  simp only [settled, hop]

end Holds

section Places

variable {L : Type} [DecidableEq L] {l l' : L}

@[simp] theorem inside_outside : (Place.outside : Place L).inside l = .idle := rfl

@[simp] theorem inside_profile (op : Op) : (Place.profile l' op).inside l = .idle := rfl

@[simp] theorem inside_code_self (pc : Pc) : (Place.code l pc).inside l = pc := if_pos rfl

@[simp] theorem inside_code_of_ne (hne : l' ≠ l) (pc : Pc) : (Place.code l' pc).inside l = .idle :=
  if_neg hne

omit [DecidableEq L] in
@[simp] theorem call_outside : (Place.outside : Place L).call = none := rfl

omit [DecidableEq L] in
@[simp] theorem call_profile (op : Op) : (Place.profile l op).call = some (l, op) := rfl

omit [DecidableEq L] in
@[simp] theorem call_code (pc : Pc) : (Place.code l pc).call = pc.op.map fun op => (l, op) := rfl

omit [DecidableEq L] in
@[simp] theorem call_enter (debug : Bool) (op : Op) : (Place.enter debug l op).call = some (l, op) := by
  cases debug <;> cases op <;> rfl

/-- A thread in a function was allowed to call it. -/
def Within (holds : List (L × Hold)) : Place L → Prop
  | .outside => True
  | .profile l op => Allowed l op holds
  | .code l pc => ∃ op, pc.op = some op ∧ Allowed l op holds

omit [DecidableEq L] in
theorem within_enter {op : Op} {holds : List (L × Hold)} (debug : Bool)
    (hallowed : Allowed l op holds) : Within holds (.enter debug l op) := by
  cases debug with
  | true => exact hallowed
  | false => exact ⟨op, Lock.op_entry op, hallowed⟩

end Places

variable {T L Name : Type} [DecidableEq T]

/-- One thread has come to another place, with other holds perhaps. -/
structure Moved (s s' : Threads T L Name) (t : T) (place : Place L) (holds : List (L × Hold)) :
    Prop where
  place : s'.place = update s.place t place
  holds : s'.holds = update s.holds t holds

variable {s s' : Threads T L Name} {t : T} {place : Place L} {holds : List (L × Hold)}

/-- What holds of every thread by its own place and holds is to be shown of the one only. -/
theorem Moved.forall {Q : T → Place L → List (L × Hold) → Prop} (hmoved : Moved s s' t place holds)
    (hothers : ∀ u, u ≠ t → Q u (s.place u) (s.holds u)) (hself : Q t place holds) (u : T) :
    Q u (s'.place u) (s'.holds u) := by
  rw [hmoved.place, hmoved.holds]
  by_cases hu : u = t
  · subst hu
    simpa only [update_self] using hself
  · simpa only [update_of_ne hu] using hothers u hu

theorem moved_refl (s : Threads T L Name) (t : T) : Moved s s t (s.place t) (s.holds t) :=
  ⟨(update_eq_self ..).symm, (update_eq_self ..).symm⟩

theorem Moved.trans {s'' : Threads T L Name} {place' : Place L} {holds' : List (L × Hold)}
    (hmoved : Moved s s' t place holds) (hmoved' : Moved s' s'' t place' holds') :
    Moved s s'' t place' holds' :=
  ⟨by rw [hmoved'.place, hmoved.place, update_idem], by rw [hmoved'.holds, hmoved.holds, update_idem]⟩

variable [DecidableEq L]

theorem Moved.view (hmoved : Moved s s' t place holds) (l : L) :
    s'.view l =
      { lock := s'.lock l
        pc := update (s.view l).pc t (place.inside l)
        holds := update (s.view l).holds t (ofLock l holds) } := by
  simp only [Threads.view, hmoved.place, hmoved.holds, Lock.Threads.mk.injEq, and_true, true_and]
  constructor
  · funext u
    by_cases hu : u = t
    · subst hu
      simp
    · simp [hu]
  · funext u
    by_cases hu : u = t
    · subst hu
      simp
    · simp [hu]

variable [DecidableEq Name] {ids : ThreadIds T} {name : L → Name} {debug : Bool} {a : Act T L}

/-- What a step of a thread is, with all that it changes: a crash; the entry into a function; the
profiler's call; a step of the lock's code. -/
inductive Change (ids : ThreadIds T) (name : L → Name) (debug : Bool) (s : Threads T L Name)
    (a : Act T L) (s' : Threads T L Name) : Prop
  | crash (fault : Fault (Option Name)) (hnext : s' = { s with crashed := some fault })
  | enter (t : T) (l : L) (op : Op) (hact : a = .call t l op) (hplace : s.place t = .outside)
      (hallowed : Allowed l op (s.holds t))
      (hmoved : Moved s s' t (.enter debug l op) (s.holds t)) (hlock : s'.lock = s.lock)
      (hcalls : s'.calls = s.calls) (hprofiler : s'.profiler = s.profiler)
  | profile (t : T) (l : L) (op : Op) (hplace : s.place t = .profile l op)
      (hmoved : Moved s s' t (.code l op.entry) (s.holds t)) (hlock : s'.lock = s.lock)
      (hcalls : s'.calls = s.calls ++ [profiled (name l) op])
      (hprofiler : s.profiler.call (profiled (name l) op) = .ok s'.profiler)
  | code (t : T) (l : L) (tick : BitVec 64) (pc next : Pc) (hplace : s.place t = .code l pc)
      (hstep : Lock.step (ids.lThreadId t) tick (s.lock l) pc = .ok (s'.lock l, next))
      (hmoved : Moved s s' t (if next = .idle then .outside else .code l next)
        (settled l pc next (s.holds t)))
      (hothers : ∀ l', l' ≠ l → s'.lock l' = s.lock l') (hcalls : s'.calls = s.calls)
      (hprofiler : s'.profiler = s.profiler)

theorem change_of_step (hstep : Threads.step ids name debug s a = some s') :
    Change ids name debug s a s' := by
  cases a with
  | call t l op =>
    obtain ⟨-, hplace, hallowed, rfl⟩ := step_call hstep
    exact .enter t l op rfl hplace hallowed ⟨rfl, (update_eq_self ..).symm⟩ rfl rfl rfl
  | run t tick =>
    obtain ⟨-, ⟨fault, rfl⟩ | ⟨l, op, profiler, hplace, hcall, rfl⟩ |
      ⟨l, pc, lock, next, hplace, hlock, rfl⟩⟩ := step_run hstep
    · exact .crash fault rfl
    · exact .profile t l op hplace ⟨rfl, (update_eq_self ..).symm⟩ rfl rfl hcall
    · refine .code t l tick pc next hplace ?_ ⟨rfl, rfl⟩ (fun l' hne => update_of_ne hne ..) rfl rfl
      simpa [Threads.after] using hlock

omit [DecidableEq T] [DecidableEq L] [DecidableEq Name] in
theorem within_code {l : L} {pc : Pc} (hwithin : ∀ t, Within (s.holds t) (s.place t))
    (hplace : s.place t = .code l pc) : ∃ op, pc.op = some op ∧ Allowed l op (s.holds t) := by
  have h := hwithin t
  rwa [hplace] at h

omit [DecidableEq L] in
theorem within_step (hwithin : ∀ t, Within (s.holds t) (s.place t))
    (hchange : Change ids name debug s a s') (u : T) : Within (s'.holds u) (s'.place u) := by
  cases hchange with
  | crash fault hnext =>
    subst hnext
    exact hwithin u
  | enter t l op _ hplace hallowed hmoved =>
    exact hmoved.forall (Q := fun _ place holds => Within holds place) (fun v _ => hwithin v)
      (within_enter debug hallowed) u
  | profile t l op hplace hmoved =>
    have hallowed := hwithin t
    rw [hplace] at hallowed
    exact hmoved.forall (Q := fun _ place holds => Within holds place) (fun v _ => hwithin v)
      ⟨op, Lock.op_entry op, hallowed⟩ u
  | code t l tick pc next hplace hstep hmoved =>
    obtain ⟨op, hop, hallowed⟩ := within_code hwithin hplace
    refine hmoved.forall (Q := fun _ place holds => Within holds place) (fun v _ => hwithin v) ?_ u
    by_cases hnext : next = .idle
    · rw [if_pos hnext]
      trivial
    · rw [if_neg hnext, settled_of_ne hnext]
      exact ⟨op, (Lock.op_step hstep hnext).trans hop, hallowed⟩

omit [DecidableEq Name] in
/-- A lock sees nothing of a thread that goes on elsewhere. -/
theorem Moved.view_eq (hmoved : Moved s s' t place holds) {l : L} (hlock : s'.lock l = s.lock l)
    (hplace : place.inside l = (s.place t).inside l) (hholds : ofLock l holds = ofLock l (s.holds t)) :
    s'.view l = s.view l := by
  have hpc : update (s.view l).pc t ((s.place t).inside l) = (s.view l).pc := update_eq_self ..
  have hsame : update (s.view l).holds t (ofLock l (s.holds t)) = (s.view l).holds :=
    update_eq_self ..
  rw [hmoved.view, hlock, hplace, hholds, hpc, hsame]
  rfl

omit [DecidableEq Name] in
/-- A lock sees the call of a thread that comes into its code. -/
theorem Moved.view_call {l : L} {op : Op} (hmoved : Moved s s' t (.code l op.entry) (s.holds t))
    (hlock : s'.lock = s.lock) (hidle : (s.place t).inside l = .idle)
    (hallowed : Allowed l op (s.holds t)) :
    Lock.Threads.step ids (s.view l) (.call t op) = some (s'.view l) := by
  have henabled : (s.view l).crashed = none ∧ (s.view l).pc t = .idle ∧
      op.Allowed ((s.view l).holds t) := ⟨rfl, hidle, hallowed.ofLock⟩
  have hsame : update (s.view l).holds t (ofLock l (s.holds t)) = (s.view l).holds :=
    update_eq_self ..
  rw [hmoved.view, hlock, inside_code_self, hsame]
  exact if_pos henabled

/-- To each lock a step is nothing, or a step of the machine with that lock only. -/
theorem view_step (hwithin : ∀ t, Within (s.holds t) (s.place t))
    (hchange : Change ids name debug s a s') (l : L) :
    s'.view l = s.view l ∨ ∃ a, Lock.Threads.step ids (s.view l) a = some (s'.view l) := by
  cases hchange with
  | crash fault hnext =>
    subst hnext
    exact .inl rfl
  | enter t l₀ op _ hplace hallowed hmoved hlock =>
    cases debug with
    | true => exact .inl (hmoved.view_eq (by rw [hlock]) (by rw [hplace]; rfl) rfl)
    | false =>
      by_cases hl : l₀ = l
      · subst hl
        exact .inr ⟨_, Moved.view_call hmoved hlock (by rw [hplace]; rfl) hallowed⟩
      · refine .inl (hmoved.view_eq (by rw [hlock]) ?_ rfl)
        rw [hplace]
        exact inside_code_of_ne hl _
  | profile t l₀ op hplace hmoved hlock =>
    by_cases hl : l₀ = l
    · subst hl
      have hallowed := hwithin t
      rw [hplace] at hallowed
      exact .inr ⟨_, hmoved.view_call hlock (by rw [hplace]; rfl) hallowed⟩
    · refine .inl (hmoved.view_eq (by rw [hlock]) ?_ rfl)
      rw [hplace]
      exact inside_code_of_ne hl _
  | code t l₀ tick pc next hplace hstep hmoved hothers =>
    obtain ⟨op, hop, hallowed⟩ := within_code hwithin hplace
    by_cases hl : l₀ = l
    · subst hl
      refine .inr ⟨.run t tick, ?_⟩
      have hpc : (s.view l₀).pc t = pc := by simp [Threads.view, hplace]
      have hbusy : pc ≠ .idle := by
        rintro rfl
        cases hop
      have hinside : (if next = .idle then .outside else .code l₀ next : Place L).inside l₀ = next := by
        split
        case isTrue hnext => exact hnext.symm
        case isFalse => exact inside_code_self next
      have hsettled : ofLock l₀ (settled l₀ pc next (s.holds t)) =
          Lock.settled pc next (ofLock l₀ (s.holds t)) := by
        by_cases hnext : next = .idle
        · subst hnext
          rw [settled_idle hop, hallowed.ofLock_settle]
          simp only [Lock.settled, hop]
        · rw [settled_of_ne hnext, Lock.settled_of_ne _ hnext]
      rw [hmoved.view, hinside, hsettled]
      have hlock : Lock.step (ids.lThreadId t) tick (s.view l₀).lock ((s.view l₀).pc t) =
          .ok (s'.lock l₀, next) := by
        rw [hpc]
        exact hstep
      simp only [Lock.Threads.step, hlock]
      rw [hpc, if_pos ⟨rfl, hbusy⟩]
      rfl
    · have hinside : (if next = .idle then .outside else .code l₀ next : Place L).inside l = .idle := by
        split
        case isTrue => rfl
        case isFalse => exact inside_code_of_ne hl next
      refine .inl (hmoved.view_eq (hothers l (Ne.symm hl)) ?_ ?_)
      · rw [hinside, hplace, inside_code_of_ne hl]
      · by_cases hnext : next = .idle
        · subst hnext
          rw [settled_idle hop, hallowed.ofLock_settle_of_ne hl]
        · rw [settled_of_ne hnext]

variable [Fintype T]

/-- Each lock with its threads is in a state of the machine with that lock only. -/
structure Sound (ids : ThreadIds T) (s : Threads T L Name) : Prop where
  within : ∀ t, Within (s.holds t) (s.place t)
  inv : ∀ l, Lock.Inv ids (s.view l)
  guest : ∀ l t, Lock.Guest ((s.view l).holds t) ((s.view l).pc t)
  limits : s.WithinLimits

omit [DecidableEq T] [DecidableEq Name] in
theorem withinLimits_start : ({} : Threads T L Name).WithinLimits := by
  intro l
  constructor
  · simp [Threads.view, Lock.Threads.readers, Lock.reads, ofLock]
  · simp [Threads.view, Lock.writes, ofLock]

omit [DecidableEq Name] in
theorem sound_start (ids : ThreadIds T) : Sound ids ({} : Threads T L Name) where
  within _ := trivial
  inv l := by
    have hview : ({} : Threads T L Name).view l = (Lock.machine ids).start := rfl
    rw [hview]
    exact Lock.inv_start ids
  guest l t := trivial
  limits := withinLimits_start

theorem Sound.step (hsound : Sound ids s) (hchange : Change ids name debug s a s')
    (hlimits : s'.WithinLimits) : Sound ids s' where
  within := within_step hsound.within hchange
  inv l := by
    rcases view_step hsound.within hchange l with hsame | ⟨a, hstep⟩
    · rw [hsame]
      exact hsound.inv l
    · have hwrap := Lock.noWrap_of_withinLimits (hsound.limits l) (hlimits l) hstep
      exact Lock.inv_step (hsound.inv l) hwrap hstep
  guest l := by
    rcases view_step hsound.within hchange l with hsame | ⟨a, hstep⟩
    · rw [hsame]
      exact hsound.guest l
    · exact Lock.guests_step (hsound.inv l) (hsound.guest l) hstep
  limits := hlimits

end CppServer.Locks
