import CppServer.Base.Waiting
import CppServer.Locks.Views

namespace CppServer.Locks

open Function Base Base.Graph Relation DeadLockProfiler

/-- The next exchange of an acquisition cannot succeed: a writer finds the lock in use, a reader
finds a writer. -/
def Blocked (lock : Lock) (holds : List Hold) (pc : Pc) : Prop :=
  .write ∉ holds ∧
    (pc.op = some .writeLock ∧ pc ≠ .writeLockAcquired ∧ lock.lockFlag ≠ emptyFlag ∨
      pc.op = some .readLock ∧ Lock.high lock ≠ 0)

instance (lock : Lock) (holds : List Hold) (pc : Pc) : Decidable (Blocked lock holds pc) :=
  inferInstanceAs (Decidable (_ ∧ _))

section States

variable {T L Name : Type} [DecidableEq L]

/-- The lock that a thread waits for. -/
def wants (s : Threads T L Name) (t : T) : Option L :=
  match s.place t with
  | .code l pc => if Blocked (s.lock l) (ofLock l (s.holds t)) pc then some l else none
  | .outside | .profile _ _ => none

/-- A thread has a lock from the step that acquires it to the step that releases it. -/
def Has (s : Threads T L Name) (t : T) (l : L) : Prop :=
  ofLock l (s.holds t) ≠ [] ∨ s.place t = .code l .writeLockAcquired

/-- A thread in an acquisition has locks only that come before the one it acquires. -/
def Ordered (before : L → L → Prop) (holds : List (L × Hold)) : Place L → Prop
  | .code l pc =>
    pc.op = some .writeLock ∨ pc.op = some .readLock → ∀ hold ∈ holds, hold.1 ≠ l → before hold.1 l
  | .outside | .profile _ _ => True

/-- The rules for calling a function of the lock: R -> W (x), and all other locks that the caller
has come before the one it acquires. -/
def Lawful (before : L → L → Prop) (holds : List (L × Hold)) (l : L) : Op → Prop
  | .writeLock => (l, .read) ∉ holds ∧ ∀ hold ∈ holds, hold.1 ≠ l → before hold.1 l
  | .readLock => ∀ hold ∈ holds, hold.1 ≠ l → before hold.1 l
  | .writeUnlock | .readUnlock => True

/-- A thread in a function called it by the rules. -/
def Obeying (before : L → L → Prop) (holds : List (L × Hold)) (place : Place L) : Prop :=
  ∀ l op, place.call = some (l, op) → Lawful before holds l op

/-- The next step calls a function by the rules, if it calls one. -/
def Threads.Obeys (before : L → L → Prop) (s : Threads T L Name) : Act T L → Prop
  | .call t l op => Lawful before (s.holds t) l op
  | .run _ _ => True

instance decidableLawful (before : L → L → Prop) [DecidableRel before] (holds : List (L × Hold))
    (l : L) : (op : Op) → Decidable (Lawful before holds l op)
  | .writeLock => inferInstanceAs (Decidable (_ ∧ _))
  | .readLock => inferInstanceAs (Decidable (∀ _ ∈ holds, _))
  | .writeUnlock | .readUnlock => isTrue trivial

instance decidableObeys (before : L → L → Prop) [DecidableRel before] (s : Threads T L Name) :
    (a : Act T L) → Decidable (s.Obeys before a)
  | .call t l op => inferInstanceAs (Decidable (Lawful before (s.holds t) l op))
  | .run _ _ => isTrue trivial

omit [DecidableEq L] in
theorem Ordered.mono {before before' : L → L → Prop} {holds : List (L × Hold)} {place : Place L}
    (hordered : Ordered before holds place) (hle : ∀ l l', before l l' → before' l l') :
    Ordered before' holds place := by
  cases place with
  | outside | profile => trivial
  | code l pc => exact fun hop hold hhold hne => hle _ _ (hordered hop hold hhold hne)

omit [DecidableEq L] in
theorem Ordered.and {before before' : L → L → Prop} {holds : List (L × Hold)} {place : Place L}
    (hordered : Ordered before holds place) (hordered' : Ordered before' holds place) :
    Ordered (fun l l' => before l l' ∧ before' l l') holds place := by
  cases place with
  | outside | profile => trivial
  | code l pc =>
    intro hop hold hhold hne
    exact ⟨hordered hop hold hhold hne, hordered' hop hold hhold hne⟩

end States

variable {T L Name : Type} [DecidableEq L] {s : Threads T L Name} {t u : T} {l l' : L}
  {before before' : L → L → Prop}

theorem wants_eq_some_iff :
    wants s t = some l ↔
      ∃ pc, s.place t = .code l pc ∧ Blocked (s.lock l) (ofLock l (s.holds t)) pc := by
  unfold wants
  cases hplace : s.place t with
  | outside => simp
  | profile l' op => simp
  | code l' pc =>
    simp only [Option.ite_none_right_eq_some, Option.some.injEq, Place.code.injEq]
    constructor
    · rintro ⟨hblocked, rfl⟩
      exact ⟨pc, ⟨rfl, rfl⟩, hblocked⟩
    · rintro ⟨_, ⟨rfl, rfl⟩, hblocked⟩
      exact ⟨hblocked, rfl⟩

theorem place_of_inside {place : Place L} {pc : Pc} (hinside : place.inside l = pc)
    (hpc : pc ≠ .idle) : place = .code l pc := by
  cases place with
  | outside => exact absurd hinside.symm hpc
  | profile l' op => exact absurd hinside.symm hpc
  | code l' pc' =>
    by_cases hl : l' = l
    · subst hl
      rw [inside_code_self] at hinside
      rw [hinside]
    · rw [inside_code_of_ne hl] at hinside
      exact absurd hinside.symm hpc

omit [DecidableEq L] in
/-- In the code of the lock the rules say what comes before it. -/
theorem Obeying.ordered {holds : List (L × Hold)} {place : Place L}
    (hobeying : Obeying before holds place) : Ordered before holds place := by
  cases place with
  | outside | profile => trivial
  | code l pc =>
    rintro (hop | hop)
    · exact (hobeying l .writeLock (by simp [hop])).2
    · exact hobeying l .readLock (by simp [hop])

section Step

variable [DecidableEq T] [DecidableEq Name] {ids : ThreadIds T} {name : L → Name} {debug : Bool}
  {s' : Threads T L Name} {a : Act T L}

omit [DecidableEq L] in
theorem obeying_step (hobeying : ∀ t, Obeying before (s.holds t) (s.place t))
    (hchange : Change ids name debug s a s') (hobeys : s.Obeys before a) (u : T) :
    Obeying before (s'.holds u) (s'.place u) := by
  cases hchange with
  | crash fault hnext =>
    subst hnext
    exact hobeying u
  | enter t l op hact hplace hallowed hmoved =>
    subst hact
    refine hmoved.forall (Q := fun _ place holds => Obeying before holds place)
      (fun v _ => hobeying v) ?_ u
    intro l' op' hcall
    rw [call_enter] at hcall
    cases hcall
    exact hobeys
  | profile t l op hplace hmoved =>
    refine hmoved.forall (Q := fun _ place holds => Obeying before holds place)
      (fun v _ => hobeying v) ?_ u
    have hsame : (Place.code l op.entry).call = (s.place t).call := by
      simp [hplace, Lock.op_entry]
    intro l' op' hcall
    exact hobeying t l' op' (hsame ▸ hcall)
  | code t l tick pc next hplace hstep hmoved =>
    refine hmoved.forall (Q := fun _ place holds => Obeying before holds place)
      (fun v _ => hobeying v) ?_ u
    by_cases hnext : next = .idle
    · rw [if_pos hnext]
      intro _ _ hcall
      cases hcall
    · rw [if_neg hnext, settled_of_ne hnext]
      have hsame : (Place.code l next).call = (s.place t).call := by
        rw [hplace, call_code, call_code, Lock.op_step hstep hnext]
      intro l' op' hcall
      exact hobeying t l' op' (hsame ▸ hcall)

end Step

variable [Fintype T] {ids : ThreadIds T}

/-- Whoever owns a lock by its fields has it. -/
theorem Sound.exists_owner (hsound : Sound ids s) (hhigh : Lock.high (s.lock l) ≠ 0) :
    ∃ u, Has s u l := by
  obtain ⟨u, hu⟩ := ((hsound.inv l).owned).resolve_left hhigh
  refine ⟨u, ?_⟩
  rcases ((hsound.inv l).thread u).owner.mp hu with hwrites | hacquired
  · left
    intro hnil
    change 0 < Lock.writes (ofLock l (s.holds u)) at hwrites
    simp [hnil, Lock.writes] at hwrites
  · exact .inr (place_of_inside hacquired (by simp))

/-- A lock that is waited for is in somebody's hands. -/
theorem Sound.held (hsound : Sound ids s) (hwants : wants s t = some l) : ∃ u, Has s u l := by
  obtain ⟨pc, -, -, ⟨-, -, hflag⟩ | ⟨-, hhigh⟩⟩ := wants_eq_some_iff.mp hwants
  · by_cases hhigh : Lock.high (s.lock l) = 0
    · have hlow : (s.view l).readers ≠ 0 := by
        rw [← (hsound.inv l).shared.low]
        intro hlow
        apply hflag
        rw [eq_emptyFlag_iff]
        change (s.lock l).lockFlag.toNat / 65536 = 0 at hhigh
        change (s.lock l).lockFlag.toNat % 65536 = 0 at hlow
        omega
      obtain ⟨u, -, hreads⟩ := Finset.exists_ne_zero_of_sum_ne_zero hlow
      refine ⟨u, .inl fun hnil => hreads ?_⟩
      change Lock.reads (ofLock l (s.holds u)) = 0
      simp [hnil, Lock.reads]
    · exact hsound.exists_owner hhigh
  · exact hsound.exists_owner hhigh

/-- Nobody waits for a lock that it has. -/
theorem Sound.not_has (hsound : Sound ids s) (hobeying : Obeying before (s.holds t) (s.place t))
    (hwants : wants s t = some l) : ¬ Has s t l := by
  obtain ⟨pc, hplace, hwrite, hblocked⟩ := wants_eq_some_iff.mp hwants
  have hpc : (s.view l).pc t = pc := by simp [Threads.view, hplace]
  rintro (hnil | hacquired)
  · apply hnil
    have hwrites : Lock.writes (ofLock l (s.holds t)) = 0 :=
      Nat.eq_zero_of_not_pos fun hpos => hwrite (Lock.mem_write_iff.mpr hpos)
    apply Lock.holds_eq_nil hwrites
    rcases hblocked with ⟨hop, -, -⟩ | ⟨hop, hhigh⟩
    · have hcall : (s.place t).call = some (l, .writeLock) := by
        rw [hplace, Place.call, hop]
        rfl
      have hlawful := hobeying l .writeLock hcall
      exact Nat.eq_zero_of_not_pos fun hpos =>
        hlawful.1 (mem_ofLock.mp (Lock.mem_read_iff.mpr hpos))
    · refine ((hsound.inv l).thread t).guest ?_ hhigh
      rintro (hpos | hacquired)
      · change 0 < Lock.writes (ofLock l (s.holds t)) at hpos
        omega
      · rw [hpc] at hacquired
        rw [hacquired] at hop
        cases hop
  · cases hplace.symm.trans hacquired
    rcases hblocked with ⟨-, hne, -⟩ | ⟨hop, -⟩
    · exact hne rfl
    · cases hop

theorem Sound.ordered (hsound : Sound ids s) (hobeying : Obeying before (s.holds u) (s.place u))
    (hordered : Ordered before' (s.holds u) (s.place u)) (hhas : Has s u l)
    (hwants : wants s u = some l') : before' l l' := by
  obtain ⟨pc, hplace, -, hblocked⟩ := wants_eq_some_iff.mp hwants
  have hne : l ≠ l' := by
    rintro rfl
    exact hsound.not_has hobeying hwants hhas
  rcases hhas with hnil | hacquired
  · obtain ⟨hold, hhold⟩ := List.exists_mem_of_ne_nil _ hnil
    rw [hplace] at hordered
    exact hordered (hblocked.imp And.left And.left) _ (mem_ofLock.mp hhold) hne
  · cases hplace.symm.trans hacquired
    exact absurd rfl hne

/-- Threads that take the locks in an order without cycles never wait in a circle: each one that
waits, waits in the end for one that has the lock and does not wait itself. -/
theorem Sound.no_deadlock (hsound : Sound ids s)
    (hobeying : ∀ t, Obeying before (s.holds t) (s.place t)) (hacyclic : Acyclic before')
    (hordered : ∀ t, Ordered before' (s.holds t) (s.place t)) :
    Acyclic (WaitsFor (wants s) (Has s)) ∧
      ∀ t, wants s t ≠ none → ∃ u, TransGen (WaitsFor (wants s) (Has s)) t u ∧ wants s u = none := by
  have hcircle : Acyclic (WaitsFor (wants s) (Has s)) :=
    WaitsFor.acyclic hacyclic fun u _ _ hhas hwants =>
      hsound.ordered (hobeying u) (hordered u) hhas hwants
  exact ⟨hcircle, fun t ht => WaitsFor.exists_free hcircle (fun _ _ => hsound.held) ht⟩

end CppServer.Locks
