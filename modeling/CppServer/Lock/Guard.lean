import CppServer.Base.Sections
import CppServer.Lock.Refinement

namespace CppServer

open Function Base

/-- Where a thread is in a function whose body stands under a `WriteLockGuard`: in no such function,
in the guard's constructor, in the body, or in the guard's destructor. -/
inductive Guarded.Place (C P : Type)
  | outside
  | constructor (c : C)
  | body (c : C) (p : P)
  | destructor
deriving DecidableEq

/-- Data with the lock under which all code works on it. A crash of the body ends the run as one of
the lock does. -/
structure Guarded (T C P D : Type) where
  lock : Lock.Threads T := {}
  place : T → Guarded.Place C P := fun _ => .outside
  data : D

namespace Guarded

/-- A label: a thread calls a function, or takes its next step. -/
inductive Act (T C : Type)
  | call (t : T) (c : C)
  | run (t : T) (tick : BitVec 64)
deriving DecidableEq

variable {T C P D : Type} [DecidableEq T]

def step (ids : ThreadIds T) (code : Section C P D Cause) (s : Guarded T C P D) :
    Act T C → Option (Guarded T C P D)
  | .call t c =>
    match s.place t with
    | .outside =>
      (Lock.Threads.step ids s.lock (.call t .writeLock)).map fun lock =>
        { s with lock, place := update s.place t (.constructor c) }
    | _ => none
  | .run t tick =>
    match s.place t with
    | .outside => none
    | .constructor c =>
      (Lock.Threads.step ids s.lock (.run t tick)).map fun lock =>
        { s with
          lock
          place := update s.place t
            (if lock.pc t = .idle then .body c (code.enter c) else .constructor c) }
    | .body c p =>
      if s.lock.crashed = none then
        match code.step p s.data with
        | .error cause => some { s with lock := { s.lock with crashed := some cause } }
        | .ok (data, some p') => some { s with data, place := update s.place t (.body c p') }
        | .ok (data, none) =>
          -- the end of the scope
          (Lock.Threads.step ids s.lock (.call t .writeUnlock)).map fun lock =>
            { s with lock, data, place := update s.place t .destructor }
      else none
    | .destructor =>
      (Lock.Threads.step ids s.lock (.run t tick)).map fun lock =>
        { s with
          lock
          place := update s.place t (if lock.pc t = .idle then .outside else .destructor) }

/-- Any number of threads that call the functions over one fresh lock. -/
def machine (ids : ThreadIds T) (code : Section C P D Cause) (data : D) :
    Machine (Guarded T C P D) (Act T C) where
  start := { data }
  step := step ids code

/-- What a step does to the data as a whole: the call takes effect with the last step of its
body. -/
def observe (code : Section C P D Cause) (s : Guarded T C P D) :
    Act T C → Guarded T C P D → Option C
  | .call _ _, _ => none
  | .run t _, _ =>
    match s.place t with
    | .body c p =>
      match code.step p s.data with
      | .ok (_, none) => some c
      | _ => none
    | _ => none

/-- What a thread's place says about its lock calls and its holds. -/
def Shape (pc : Pc) (holds : List Hold) : Place C P → Prop
  | .outside => pc = .idle ∧ holds = []
  | .constructor _ => pc.op = some .writeLock ∧ holds = []
  | .body _ _ => pc = .idle ∧ holds = [.write]
  | .destructor => pc.op = some .writeUnlock ∧ holds = [.write]

omit [DecidableEq T] in
/-- A guard neither reads nor nests. -/
theorem withinLimits_of_shape [Fintype T] {lock : Lock.Threads T} {place : T → Place C P}
    (hshape : ∀ t, Shape (lock.pc t) (lock.holds t) (place t)) : lock.WithinLimits := by
  have hholds (t : T) : lock.holds t = [] ∨ lock.holds t = [.write] := by
    have h := hshape t
    cases hplace : place t with
    | outside | constructor _ =>
      rw [hplace] at h
      exact .inl h.2
    | body _ _ | destructor =>
      rw [hplace] at h
      exact .inr h.2
  constructor
  · rw [Lock.Threads.readers, Finset.sum_eq_zero]
    · omega
    · intro t _
      rcases hholds t with h | h <;> simp [h, Lock.reads]
  · intro t
    rcases hholds t with h | h <;> simp [h, Lock.writes]

/-- The guarded data as users see it: where no body is being executed it is `d`, and where one is, it
is what that body has made of `d` so far. -/
structure Refines [Fintype T] (ids : ThreadIds T) (code : Section C P D Cause)
    (s : Guarded T C P D) (d : D) : Prop where
  inv : Lock.Inv ids s.lock
  shape : ∀ t, Shape (s.lock.pc t) (s.lock.holds t) (s.place t)
  inside : ∀ t c p, s.place t = .body c p → code.Reaches c d p s.data
  outside : (∀ t c p, s.place t ≠ .body c p) → s.data = d

variable [Fintype T] {ids : ThreadIds T} {code : Section C P D Cause} {s s' : Guarded T C P D}
  {d : D} {t u : T}

omit [DecidableEq T] in
/-- Nobody else is in a body. -/
theorem Refines.alone (hrefines : Refines ids code s d) (hwrite : .write ∈ s.lock.holds t)
    (hne : u ≠ t) (c : C) (p : P) : s.place u ≠ .body c p := by
  intro hplace
  have hnone := hrefines.inv.exclusive (Ne.symm hne) hwrite
  have hshape := hrefines.shape u
  rw [hplace] at hshape
  rw [hshape.2] at hnone
  cases hnone

omit [Fintype T] in
/-- A step of the lock changes what the place of one thread says only. -/
theorem shape_update {lock lock' : Lock.Threads T} {place : T → Place C P} {next : Place C P}
    (hshape : ∀ u, Shape (lock.pc u) (lock.holds u) (place u))
    (hothers : ∀ u, u ≠ t → lock'.pc u = lock.pc u ∧ lock'.holds u = lock.holds u)
    (hself : Shape (lock'.pc t) (lock'.holds t) next) (u : T) :
    Shape (lock'.pc u) (lock'.holds u) (update place t next u) := by
  by_cases hu : u = t
  · subst hu
    rwa [update_self]
  · obtain ⟨hpc, hholds⟩ := hothers u hu
    rw [update_of_ne hu, hpc, hholds]
    exact hshape u

omit [Fintype T] in
/-- A step inside a lock call: a crash, or the call goes on, or it returns. -/
theorem lock_run {lock lock' : Lock.Threads T} {tick : BitVec 64} {op : Op}
    (hop : (lock.pc t).op = some op) (hstep : Lock.Threads.step ids lock (.run t tick) = some lock') :
    (∀ u, u ≠ t → lock'.pc u = lock.pc u ∧ lock'.holds u = lock.holds u) ∧
      (lock'.pc t ≠ .idle → (lock'.pc t).op = some op ∧ lock'.holds t = lock.holds t) ∧
      (lock'.pc t = .idle → lock'.holds t = op.settle (lock.holds t)) := by
  obtain ⟨-, hpc, ⟨cause, -, rfl⟩ | ⟨word, pc', hlock, rfl⟩⟩ := Lock.Threads.step_run hstep
  · exact ⟨fun _ _ => ⟨rfl, rfl⟩, fun _ => ⟨hop, rfl⟩, fun h => absurd h hpc⟩
  · refine ⟨fun u hu => ⟨update_of_ne hu .., update_of_ne hu ..⟩, fun hnext => ?_, fun hnext => ?_⟩
    · simp only [update_self] at hnext ⊢
      exact ⟨(Lock.op_step hlock hnext).trans hop, Lock.settled_of_ne _ hnext⟩
    · simp only [update_self] at hnext ⊢
      subst hnext
      simp only [Lock.settled, hop]

/-- A lock call and a step inside one keep the lock's invariant, whatever thread they are of. -/
theorem Refines.lock_inv (hrefines : Refines ids code s d) {a : Lock.Act T} {lock : Lock.Threads T}
    {place : T → Place C P} (hstep : Lock.Threads.step ids s.lock a = some lock)
    (hshape : ∀ u, Shape (lock.pc u) (lock.holds u) (place u)) : Lock.Inv ids lock :=
  Lock.inv_step hrefines.inv (Lock.noWrap_of_withinLimits (withinLimits_of_shape hrefines.shape)
    (withinLimits_of_shape hshape) hstep) hstep

/-- A thread that neither was in a body nor is in one now does not touch the data. -/
theorem Refines.away (hrefines : Refines ids code s d) {a : Lock.Act T} {lock : Lock.Threads T}
    {next : Place C P} (hstep : Lock.Threads.step ids s.lock a = some lock)
    (hothers : ∀ u, u ≠ t → lock.pc u = s.lock.pc u ∧ lock.holds u = s.lock.holds u)
    (hself : Shape (lock.pc t) (lock.holds t) next) (hbefore : ∀ c p, s.place t ≠ .body c p)
    (hnext : ∀ c p, next ≠ .body c p) :
    Refines ids code { s with lock, place := update s.place t next } d := by
  have hshape := shape_update hrefines.shape hothers hself
  refine ⟨hrefines.lock_inv hstep hshape, hshape, fun u c p hplace => ?_, fun hnone => ?_⟩
  · by_cases hu : u = t
    · subst hu
      simp only [update_self] at hplace
      exact absurd hplace (hnext c p)
    · simp only [update_of_ne hu] at hplace
      exact hrefines.inside u c p hplace
  · refine hrefines.outside fun u c p hplace => ?_
    by_cases hu : u = t
    · subst hu
      exact hbefore c p hplace
    · refine hnone u c p ?_
      simpa only [update_of_ne hu] using hplace

theorem Refines.call (hrefines : Refines ids code s d) {c : C}
    (hstep : step ids code s (.call t c) = some s') : Refines ids code s' d := by
  simp only [step] at hstep
  cases hplace : s.place t with
  | outside =>
    rw [hplace] at hstep
    obtain ⟨lock, hlock, rfl⟩ := Option.map_eq_some_iff.mp hstep
    have hshape := hrefines.shape t
    rw [hplace] at hshape
    obtain ⟨-, -, -, rfl⟩ := Lock.Threads.step_call hlock
    refine hrefines.away hlock (fun u hu => ⟨update_of_ne hu .., rfl⟩) ?_ (by simp [hplace]) (by simp)
    exact ⟨by simp [Lock.op_entry], hshape.2⟩
  | constructor | body | destructor =>
    rw [hplace] at hstep
    cases hstep

/-- The guard's constructor goes on, or returns into the body: only then is anybody in one. -/
theorem Refines.constructor (hrefines : Refines ids code s d) {tick : BitVec 64} {c : C}
    (hplace : s.place t = .constructor c) {lock : Lock.Threads T}
    (hstep : Lock.Threads.step ids s.lock (.run t tick) = some lock) :
    Refines ids code
      { s with
        lock
        place := update s.place t
          (if lock.pc t = .idle then .body c (code.enter c) else .constructor c) } d := by
  have hshape := hrefines.shape t
  rw [hplace] at hshape
  obtain ⟨hothers, hstay, hreturn⟩ := lock_run hshape.1 hstep
  by_cases hidle : lock.pc t = .idle
  · rw [if_pos hidle]
    have hholds : lock.holds t = [.write] := by
      rw [hreturn hidle, hshape.2]
      rfl
    have hself : Shape (lock.pc t) (lock.holds t) (.body c (code.enter c) : Place C P) :=
      ⟨hidle, hholds⟩
    have hshape' := shape_update hrefines.shape hothers hself
    have hinv := hrefines.lock_inv hstep hshape'
    have halone (u : T) (hu : u ≠ t) (c' : C) (p : P) : s.place u ≠ .body c' p := by
      intro hbody
      have hnone := hinv.exclusive (Ne.symm hu) (by rw [hholds]; exact List.mem_singleton_self _)
      have hbody' := hshape' u
      rw [update_of_ne hu, hbody] at hbody'
      rw [hbody'.2] at hnone
      cases hnone
    refine ⟨hinv, hshape', fun u c' p hbody => ?_, fun hnone => ?_⟩
    · by_cases hu : u = t
      · subst hu
        simp only [update_self] at hbody
        cases hbody
        have hdata : s.data = d := by
          refine hrefines.outside fun v c' p hv => ?_
          by_cases hvt : v = u
          · subst hvt
            rw [hplace] at hv
            cases hv
          · exact halone v hvt c' p hv
        simp only [hdata]
        exact .enter
      · simp only [update_of_ne hu] at hbody
        exact absurd hbody (halone u hu c' p)
    · refine absurd ?_ (hnone t c (code.enter c))
      simp only [update_self]
  · rw [if_neg hidle]
    obtain ⟨hop, hholds⟩ := hstay hidle
    exact hrefines.away hstep hothers ⟨hop, hholds.trans hshape.2⟩ (by simp [hplace]) (by simp)

/-- The guard's destructor goes on, or returns from the function. -/
theorem Refines.destructor (hrefines : Refines ids code s d) {tick : BitVec 64}
    (hplace : s.place t = .destructor) {lock : Lock.Threads T}
    (hstep : Lock.Threads.step ids s.lock (.run t tick) = some lock) :
    Refines ids code
      { s with lock, place := update s.place t (if lock.pc t = .idle then .outside else .destructor) }
      d := by
  have hshape := hrefines.shape t
  rw [hplace] at hshape
  obtain ⟨hothers, hstay, hreturn⟩ := lock_run hshape.1 hstep
  refine hrefines.away hstep hothers ?_ (by simp [hplace]) (fun c p => by split <;> simp)
  by_cases hidle : lock.pc t = .idle
  · rw [if_pos hidle]
    refine ⟨hidle, ?_⟩
    rw [hreturn hidle, hshape.2]
    rfl
  · rw [if_neg hidle]
    obtain ⟨hop, hholds⟩ := hstay hidle
    exact ⟨hop, hholds.trans hshape.2⟩

/-- The body goes on: what it has made of the data is still all its own. -/
theorem Refines.body (hrefines : Refines ids code s d) {c : C} {p p' : P} {data : D}
    (hplace : s.place t = .body c p) (hcode : code.step p s.data = .ok (data, some p')) :
    Refines ids code { s with data, place := update s.place t (.body c p') } d := by
  have hshape := hrefines.shape t
  rw [hplace] at hshape
  have hwrite : .write ∈ s.lock.holds t := by
    rw [hshape.2]
    exact List.mem_singleton_self _
  refine ⟨hrefines.inv, shape_update hrefines.shape (fun _ _ => ⟨rfl, rfl⟩) hshape,
    fun u c' p'' hbody => ?_, fun hnone => ?_⟩
  · by_cases hu : u = t
    · subst hu
      simp only [update_self] at hbody
      cases hbody
      exact .step (hrefines.inside u c p hplace) hcode
    · simp only [update_of_ne hu] at hbody
      exact absurd hbody (hrefines.alone hwrite hu c' p'')
  · refine absurd ?_ (hnone t c p')
    simp only [update_self]

/-- The body ends: at that instant its call takes effect, and nobody is in a body. -/
theorem Refines.leave (hrefines : Refines ids code s d) {c : C} {p : P} {data : D}
    (hplace : s.place t = .body c p) (hcode : code.step p s.data = .ok (data, none))
    {lock : Lock.Threads T} (hstep : Lock.Threads.step ids s.lock (.call t .writeUnlock) = some lock) :
    code.Completes c d data ∧
      Refines ids code { s with lock, data, place := update s.place t .destructor } data := by
  have hshape := hrefines.shape t
  rw [hplace] at hshape
  have hwrite : .write ∈ s.lock.holds t := by
    rw [hshape.2]
    exact List.mem_singleton_self _
  have hlock := hstep
  obtain ⟨-, -, -, rfl⟩ := Lock.Threads.step_call hstep
  have hshape' (u : T) : Shape (update s.lock.pc t Op.writeUnlock.entry u) (s.lock.holds u)
      (update s.place t .destructor u) := by
    by_cases hu : u = t
    · subst hu
      simp only [update_self]
      exact ⟨Lock.op_entry _, hshape.2⟩
    · simpa only [update_of_ne hu] using hrefines.shape u
  refine ⟨⟨p, s.data, hrefines.inside t c p hplace, hcode⟩, hrefines.lock_inv hlock hshape', hshape',
    fun u c' p' hbody => ?_, fun _ => rfl⟩
  by_cases hu : u = t
  · subst hu
    simp only [update_self] at hbody
    cases hbody
  · simp only [update_of_ne hu] at hbody
    exact absurd hbody (hrefines.alone hwrite hu c' p')

theorem Refines.run (hrefines : Refines ids code s d) {A : Machine D C} (himplements : code.Implements A)
    {tick : BitVec 64} (hstep : step ids code s (.run t tick) = some s') :
    match observe code s (.run t tick) s' with
    | none => Refines ids code s' d
    | some c => ∃ d', A.step d c = some d' ∧ Refines ids code s' d' := by
  simp only [step] at hstep
  cases hplace : s.place t with
  | outside =>
    rw [hplace] at hstep
    cases hstep
  | constructor c =>
    rw [hplace] at hstep
    obtain ⟨lock, hlock, rfl⟩ := Option.map_eq_some_iff.mp hstep
    simp only [observe, hplace]
    exact hrefines.constructor hplace hlock
  | destructor =>
    rw [hplace] at hstep
    obtain ⟨lock, hlock, rfl⟩ := Option.map_eq_some_iff.mp hstep
    simp only [observe, hplace]
    exact hrefines.destructor hplace hlock
  | body c p =>
    simp only [hplace] at hstep
    split at hstep
    case isFalse => cases hstep
    simp only [observe, hplace]
    split at hstep
    case h_1 cause hcode =>
      cases hstep
      simp only [hcode]
      have hinv : Lock.Inv ids { s.lock with crashed := some cause } :=
        ⟨hrefines.inv.thread, hrefines.inv.shared, hrefines.inv.owned⟩
      exact ⟨hinv, hrefines.shape, hrefines.inside, hrefines.outside⟩
    case h_2 data p' hcode =>
      cases hstep
      simp only [hcode]
      exact hrefines.body hplace hcode
    case h_3 data hcode =>
      obtain ⟨lock, hlock, rfl⟩ := Option.map_eq_some_iff.mp hstep
      simp only [hcode]
      obtain ⟨hcompletes, hrefines'⟩ := hrefines.leave hplace hcode hlock
      exact ⟨data, himplements c d data hcompletes, hrefines'⟩

/-- Code under a `WriteLockGuard` is atomic. -/
theorem simulation_guarded (ids : ThreadIds T) {A : Machine D C} (himplements : code.Implements A) :
    Machine.Simulation (machine ids code A.start) A Machine.Any (observe code)
      (Refines ids code) where
  start := by
    refine ⟨Lock.inv_start ids, fun _ => ⟨rfl, rfl⟩, fun t c p hplace => ?_, fun _ => rfl⟩
    cases hplace
  step s a s' d hrefines _ hstep := by
    cases a with
    | call t c => exact hrefines.call hstep
    | run t tick =>
      have hrun := hrefines.run himplements hstep
      cases hobserve : observe code s (.run t tick) s' with
      | none =>
        rw [hobserve] at hrun
        exact hrun
      | some c =>
        rw [hobserve] at hrun
        exact hrun

end Guarded

end CppServer
