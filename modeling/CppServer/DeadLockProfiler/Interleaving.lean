import CppServer.Base.Machine
import CppServer.DeadLockProfiler.Names

namespace CppServer.DeadLockProfiler

open Function Base Base.Graph Relation

/-- One profiler and the threads that use it. `locks` is bookkeeping: the locks
that a thread has taken and not released, latest first. -/
structure Threads (T Name : Type) where
  profiler : Profiler Name := {}
  locks : T → List Name := fun _ => []
  crashed : Option (Fault (Option Name)) := none

/-- A call is one step, under the profiler's mutex. -/
inductive Act (T Name : Type)
  | push (t : T) (name : Name)
  | pop (t : T)
deriving DecidableEq

namespace Threads

variable {T Name : Type} [DecidableEq T] [LinearOrder Name]

/-- A thread takes its locks in the order of the names, none twice, and releases
its latest. -/
def step (s : Threads T Name) : Act T Name → Option (Threads T Name)
  | .push t name =>
    if s.crashed = none ∧ ∀ x ∈ s.locks t, x < name then
      match s.profiler.pushLock name with
      | .ok profiler =>
        some { s with profiler, locks := update s.locks t (name :: s.locks t) }
      | .error fault => some { s with crashed := some fault }
    else none
  | .pop t =>
    match s.crashed, s.locks t with
    | none, name :: rest =>
      match s.profiler.popLock name with
      | .ok profiler => some { s with profiler, locks := update s.locks t rest }
      | .error fault => some { s with crashed := some fault }
    | _, _ => none

variable (T Name) in
def machine : Machine (Threads T Name) (Act T Name) where
  start := {}
  step := step

/-- The shared stack is in step with the caller's own locks, as far as the call
looks at it: a push finds no lock on top, the pushed one, the caller's latest,
or one whose edge to the pushed lock is recorded; a pop finds the caller's
latest lock. -/
def Aligned (s : Threads T Name) : Act T Name → Prop
  | .push t name => ∀ top, s.profiler.held.head? = some top →
      top = name ∨ (s.locks t).head? = some top ∨ s.profiler.NameEdge top name
  | .pop t => s.profiler.held.head? = (s.locks t).head?

/-- What a call must not do: crash, or record an edge other than from the
caller's latest lock to the one that it takes. -/
def Truthful (s : Threads T Name) (a : Act T Name) (s' : Threads T Name) : Prop :=
  s'.crashed = none ∧ ∀ x y, s'.profiler.NameEdge x y → s.profiler.NameEdge x y ∨
    ∃ t, a = .push t y ∧ (s.locks t).head? = some x

theorem step_push {s s' : Threads T Name} {t : T} {name : Name}
    (hstep : step s (.push t name) = some s') :
    s.crashed = none ∧ (∀ x ∈ s.locks t, x < name) ∧
      ((∃ fault, s.profiler.pushLock name = .error fault ∧ s' = { s with crashed := some fault }) ∨
        ∃ profiler, s.profiler.pushLock name = .ok profiler ∧
          s' = { s with profiler, locks := update s.locks t (name :: s.locks t) }) := by
  simp only [step] at hstep
  split at hstep
  case isTrue h =>
    refine ⟨h.1, h.2, ?_⟩
    cases hpush : s.profiler.pushLock name with
    | error fault =>
      rw [hpush] at hstep
      cases hstep
      exact .inl ⟨fault, rfl, rfl⟩
    | ok profiler =>
      rw [hpush] at hstep
      cases hstep
      exact .inr ⟨profiler, rfl, rfl⟩
  case isFalse => cases hstep

theorem step_pop {s s' : Threads T Name} {t : T} (hstep : step s (.pop t) = some s') :
    s.crashed = none ∧ ∃ name rest, s.locks t = name :: rest ∧
      ((∃ fault, s.profiler.popLock name = .error fault ∧ s' = { s with crashed := some fault }) ∨
        ∃ profiler, s.profiler.popLock name = .ok profiler ∧
          s' = { s with profiler, locks := update s.locks t rest }) := by
  simp only [step] at hstep
  split at hstep
  case h_1 name rest hcrashed hlocks =>
    refine ⟨hcrashed, name, rest, hlocks, ?_⟩
    cases hpop : s.profiler.popLock name with
    | error fault =>
      rw [hpop] at hstep
      cases hstep
      exact .inl ⟨fault, rfl, rfl⟩
    | ok profiler =>
      rw [hpop] at hstep
      cases hstep
      exact .inr ⟨profiler, rfl, rfl⟩
  case h_2 => cases hstep

/-- The invariant of aligned runs: the profiler knows every lock that is taken,
and its edges go up in the order of the names. -/
structure Inv (s : Threads T Name) : Prop where
  running : s.crashed = none
  profiler : s.profiler.Inv
  known : ∀ t, ∀ x ∈ s.locks t, x ∈ s.profiler.nameToId
  upward : ∀ x y, s.profiler.NameEdge x y → x < y

theorem inv_start : Inv (machine T Name).start := by
  refine ⟨rfl, Profiler.inv_fresh, fun t x hx => absurd hx List.not_mem_nil, ?_⟩
  rintro x y ⟨a, b, hx, _⟩
  cases hx

/-- An aligned push records at most an edge from the caller's latest lock, which
is below the pushed one, so it closes no cycle. -/
theorem Inv.push {s s' : Threads T Name} {t : T} {name : Name} (hinv : Inv s)
    (haligned : s.Aligned (.push t name)) (hstep : step s (.push t name) = some s') :
    Truthful s (.push t name) s' ∧ Inv s' := by
  obtain ⟨hrunning, horder, hcases⟩ := step_push hstep
  obtain ⟨p, _, hknown, hedges, hpush⟩ := Profiler.pushLock_spec hinv.profiler name
  have hnew (x y : Name) (hedge : p.NameEdge x y) : s.profiler.NameEdge x y ∨
      (y = name ∧ (s.locks t).head? = some x) := by
    rcases (hedges x y).mp hedge with hedge | ⟨htop, rfl, hne⟩
    · exact .inl hedge
    · rcases haligned x htop with heq | hlatest | hedge
      · exact absurd heq hne
      · exact .inr ⟨rfl, hlatest⟩
      · exact .inl hedge
  have hupward (x y : Name) (hedge : p.NameEdge x y) : x < y := by
    rcases hnew x y hedge with hedge | ⟨rfl, hlatest⟩
    · exact hinv.upward x y hedge
    · exact horder x (List.mem_of_mem_head? (Option.mem_def.mpr hlatest))
  obtain ⟨hok, hinv'⟩ | ⟨_, hcyclic⟩ := hpush
  · obtain ⟨_, herror, _⟩ | ⟨_, hok', rfl⟩ := hcases
    · rw [hok] at herror
      cases herror
    · rw [hok] at hok'
      cases hok'
      refine ⟨⟨hrunning, fun x y hedge => ?_⟩, hrunning, hinv', ?_, hupward⟩
      · rcases hnew x y hedge with hedge | ⟨rfl, hlatest⟩
        · exact .inl hedge
        · exact .inr ⟨t, rfl, hlatest⟩
      · intro u x hx
        rw [hknown]
        by_cases hu : u = t
        · subst hu
          simp only [update_self] at hx
          exact (List.mem_cons.mp hx).imp_right (hinv.known u x)
        · simp only [update_of_ne hu] at hx
          exact .inr (hinv.known u x hx)
  · exact absurd (acyclic_of_lt id hupward) hcyclic

/-- An aligned pop takes the caller's latest lock off the stack. -/
theorem Inv.pop {s s' : Threads T Name} {t : T} (hinv : Inv s) (haligned : s.Aligned (.pop t))
    (hstep : step s (.pop t) = some s') : Truthful s (.pop t) s' ∧ Inv s' := by
  obtain ⟨hrunning, name, rest, hlocks, hcases⟩ := step_pop hstep
  have hknown := hinv.known t name (hlocks ▸ List.mem_cons_self)
  rcases Profiler.popLock_spec hinv.profiler hknown with
    ⟨_, p, _, hok, hinv', _, hnames, hedges⟩ | ⟨hother, _⟩
  · obtain ⟨_, herror, _⟩ | ⟨_, hok', rfl⟩ := hcases
    · rw [hok] at herror
      cases herror
    · rw [hok] at hok'
      cases hok'
      refine ⟨⟨hrunning, fun x y hedge => .inl ((hedges x y).mp hedge)⟩, hrunning, hinv', ?_,
        fun x y hedge => hinv.upward x y ((hedges x y).mp hedge)⟩
      intro u x hx
      rw [hnames]
      by_cases hu : u = t
      · subst hu
        simp only [update_self] at hx
        exact hinv.known u x (hlocks ▸ List.mem_cons_of_mem name hx)
      · simp only [update_of_ne hu] at hx
        exact hinv.known u x hx
  · rw [Aligned, hlocks] at haligned
    exact absurd haligned hother

theorem inv_step {s s' : Threads T Name} {a : Act T Name} (hinv : Inv s) (haligned : s.Aligned a)
    (hstep : step s a = some s') : Truthful s a s' ∧ Inv s' := by
  cases a with
  | push t name => exact hinv.push haligned hstep
  | pop t => exact hinv.pop haligned hstep

theorem inv_run {as : List (Act T Name)} {s : Threads T Name}
    (hrun : (machine T Name).Run (fun s a _ => s.Aligned a) as s) : Inv s :=
  hrun.invariant inv_start fun _ _ _ hinv haligned hstep => (inv_step hinv haligned hstep).2

/-- A push that is not aligned records a foreign edge, or crashes. -/
theorem Inv.aligned_of_push {s s' : Threads T Name} {t : T} {name : Name} (hinv : Inv s)
    (hstep : step s (.push t name) = some s') (htruthful : Truthful s (.push t name) s') :
    s.Aligned (.push t name) := by
  intro top htop
  obtain ⟨_, _, hcases⟩ := step_push hstep
  obtain ⟨p, _, _, hedges, hpush⟩ := Profiler.pushLock_spec hinv.profiler name
  obtain ⟨hcrashed, htruthful⟩ := htruthful
  obtain ⟨_, _, rfl⟩ | ⟨_, hok', rfl⟩ := hcases
  · cases hcrashed
  · obtain ⟨hok, _⟩ | ⟨⟨_, hcrash⟩, _⟩ := hpush
    · rw [hok] at hok'
      cases hok'
      by_cases heq : top = name
      · exact .inl heq
      · rcases htruthful top name ((hedges top name).mpr (.inr ⟨htop, rfl, heq⟩)) with
          hedge | ⟨u, hact, hlatest⟩
        · exact .inr (.inr hedge)
        · cases hact
          exact .inr (.inl hlatest)
    · rw [hcrash] at hok'
      cases hok'

theorem Inv.aligned_of_pop {s s' : Threads T Name} {t : T} (hinv : Inv s)
    (hstep : step s (.pop t) = some s') (htruthful : Truthful s (.pop t) s') :
    s.Aligned (.pop t) := by
  obtain ⟨_, name, rest, hlocks, hcases⟩ := step_pop hstep
  have hknown := hinv.known t name (hlocks ▸ List.mem_cons_self)
  rw [Aligned, hlocks]
  rcases Profiler.popLock_spec hinv.profiler hknown with ⟨_, _, hheld, _⟩ | ⟨_, cause, hcrash⟩
  · rw [hheld]
    rfl
  · obtain ⟨_, _, rfl⟩ | ⟨_, hok, _⟩ := hcases
    · cases htruthful.1
    · rw [hcrash] at hok
      cases hok

/-- An edge's origin: the push that recorded it, by a thread whose latest lock
was its source. -/
def Origin (as : List (Act T Name)) (x y : Name) : Prop :=
  ∃ before t after s, as = before ++ .push t y :: after ∧
    (machine T Name).exec (machine T Name).start before = some s ∧
    ¬ s.profiler.NameEdge x y ∧ (s.locks t).head? = some x

theorem origin_run {as : List (Act T Name)} {s : Threads T Name}
    (hrun : (machine T Name).Run (fun s a _ => s.Aligned a) as s) {x y : Name}
    (hedge : s.profiler.NameEdge x y) : Origin as x y := by
  induction hrun with
  | start =>
    obtain ⟨a, b, hx, _⟩ := hedge
    cases hx
  | @snoc as s s' a hrun haligned hstep ih =>
    have hlater (horigin : Origin as x y) : Origin (as ++ [a]) x y := by
      obtain ⟨before, t, after, u, rfl, h⟩ := horigin
      exact ⟨before, t, after ++ [a], u, by simp, h⟩
    by_cases hold : s.profiler.NameEdge x y
    · exact hlater (ih hold)
    · rcases (inv_step (inv_run hrun) haligned hstep).1.2 x y hedge with h | ⟨t, rfl, hlatest⟩
      · exact absurd h hold
      · exact ⟨as, t, [], s, rfl, hrun.exec_eq, hold, hlatest⟩

/-- In a run of aligned calls nothing crashes and every edge was recorded by a
thread that took its target with its source for its latest lock; and the next
call does so again if and only if it is aligned. -/
theorem aligned_run {as : List (Act T Name)} {s : Threads T Name}
    (hrun : (machine T Name).Run (fun s a _ => s.Aligned a) as s) :
    s.crashed = none ∧ (∀ x y, s.profiler.NameEdge x y → Origin as x y) ∧
      ∀ a s', (machine T Name).step s a = some s' → (Truthful s a s' ↔ s.Aligned a) := by
  have hinv := inv_run hrun
  refine ⟨hinv.running, fun x y => origin_run hrun, fun a s' hstep => ⟨fun htruthful => ?_, fun haligned =>
    (inv_step hinv haligned hstep).1⟩⟩
  cases a with
  | push t name => exact hinv.aligned_of_push hstep htruthful
  | pop t => exact hinv.aligned_of_pop hstep htruthful

/-- One thread nests two locks; the edge between them is its own. -/
theorem aligned_run_nested : ∃ as s,
    (machine (Fin 2) ℕ).Run (fun s a _ => s.Aligned a) as s ∧ s.locks 0 = [2, 1] ∧
      s.profiler.NameEdge 1 2 ∧ Origin as 1 2 := by
  have hfirst : (machine (Fin 2) ℕ).Run (fun s a _ => s.Aligned a) ([] ++ [.push 0 1]) _ :=
    .snoc .start (fun _ htop => by cases htop) rfl
  have hsecond : (machine (Fin 2) ℕ).Run (fun s a _ => s.Aligned a)
      ([] ++ [.push 0 1] ++ [.push 0 2]) _ :=
    hfirst.snoc (fun _ htop => by cases htop; exact .inr (.inl rfl)) rfl
  refine ⟨_, _, hsecond, rfl, ?hedge, (aligned_run hsecond).2.1 1 2 ?hedge⟩
  exact ⟨0, 1, rfl, rfl, ⟨[1], List.pairwise_singleton _ _⟩, rfl, List.mem_singleton_self 1⟩

/-- Two threads with one lock each: the second push records an edge between
locks that no thread holds together, and the first thread cannot release its
lock, which the other's covers on the shared stack. -/
theorem interleaved_pop_crashes : ∃ s s',
    (machine (Fin 2) ℕ).exec (machine (Fin 2) ℕ).start [.push 0 1, .push 1 2] = some s ∧
      s.locks 0 = [1] ∧ s.locks 1 = [2] ∧ s.profiler.NameEdge 1 2 ∧
      (machine (Fin 2) ℕ).step s (.pop 0) = some s' ∧
      s'.crashed = some (.crash .invalidUnlock []) :=
  ⟨_, _, rfl, rfl, rfl, ⟨0, 1, rfl, rfl, ⟨[1], List.pairwise_singleton _ _⟩, rfl,
    List.mem_singleton_self 1⟩, rfl, rfl⟩

end Threads

end CppServer.DeadLockProfiler
