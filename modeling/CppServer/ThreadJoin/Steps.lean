import CppServer.ThreadManager

namespace CppServer.ThreadJoin

open Base

/-- A `std::thread` object of the vector; `joinable` until its `join` has returned. -/
structure Handle where
  thread : ℕ
  joinable : Bool := true
deriving DecidableEq, Repr

/-- Where the main thread stands in `Join`. The range is taken once: the buffer it points
into, the index of the next element, and the index of its end. -/
inductive Pc
  | idle
  | loop (buffer i stop : ℕ)
  | joining (buffer i stop : ℕ)
  | clear (stop : ℕ)
deriving DecidableEq, Repr

/-- The manager is there, in its destructor, or gone. -/
inductive Life
  | alive
  | ending
  | ended
deriving DecidableEq, Repr

/-- The manager with its vector, which moves to a buffer with a new number when it grows.
`joined` and `destroyed` are bookkeeping: the threads whose `join` has returned, and those
whose objects have been destroyed. `stale` records the use of an iterator or a reference
that a `push_back` had invalidated; the process is `halted` once it has used freed storage or
has destroyed a joinable object. -/
structure Process where
  manager : ThreadManager := {}
  buffer : ℕ := 0
  capacity : ℕ := 0
  threads : List Handle := []
  pc : Pc := .idle
  life : Life := .alive
  joined : List ℕ := []
  destroyed : List ℕ := []
  stale : Bool := false
  halted : Bool := false
deriving DecidableEq

inductive Act
  | initTLS (t : ℕ)
  | finish (t : ℕ)
  | launch (caller : ℕ) (grown : Option ℕ)
  | range (destructor : Bool)
  | test
  | join
  | clear
  | destroy
deriving DecidableEq, Repr

namespace Process

def manage (s : Process) (a : ThreadManager.Act) : Option Process :=
  (s.manager.step a).map fun manager => { s with manager := manager }

/-- `push_back`: a full vector moves to a buffer of a greater capacity, which the library
chooses. -/
def pushBack (s : Process) (handle : Handle) : Option ℕ → Option Process
  | none =>
    if s.threads.length < s.capacity then
      some { s with threads := s.threads ++ [handle] }
    else none
  | some capacity =>
    if s.threads.length = s.capacity ∧ s.capacity < capacity then
      some { s with threads := s.threads ++ [handle]
                    buffer := s.buffer + 1
                    capacity := capacity }
    else none

/-- The main thread, number 0, is inside `Join` or the destructor. -/
def Busy (s : Process) : Prop := s.pc ≠ .idle ∨ s.life ≠ .alive

instance (s : Process) : Decidable s.Busy := inferInstanceAs (Decidable (_ ∨ _))

/-- `Launch` holds `_lock` all through; the steps of `Join` do not take it. -/
def launch (s : Process) (caller : ℕ) (grown : Option ℕ) : Option Process :=
  if s.life = .ended ∨ (caller = 0 ∧ s.Busy) then none
  else
    (s.manager.step (.launch caller)).bind fun manager =>
      { s with manager := manager }.pushBack { thread := s.manager.threads.length } grown

/-- The `for` statement takes `begin()` and `end()`, for a call by the main thread or for
the one in the destructor. -/
def range (s : Process) (destructor : Bool) : Option Process :=
  match s.manager.threads[0]?, s.pc, s.life with
  | some (Phase.running _), .idle, .alive =>
    some { s with pc := .loop s.buffer 0 s.threads.length
                  life := if destructor then .ending else .alive }
  | _, _, _ => none

/-- The range no longer ends where the vector does: every `push_back` invalidates `end()`,
and one that moves the vector all other iterators. -/
def Outdated (s : Process) (buffer stop : ℕ) : Prop :=
  buffer ≠ s.buffer ∨ stop ≠ s.threads.length

instance (s : Process) (buffer stop : ℕ) : Decidable (s.Outdated buffer stop) :=
  inferInstanceAs (Decidable (_ ∨ _))

/-- Compare with the end, and test `joinable` of the element. In the same buffer an outdated
end still is the old one; in a freed one nothing more is said. -/
def test (s : Process) : Option Process :=
  match s.pc with
  | .loop buffer i stop =>
    let stale := s.stale || decide (s.Outdated buffer stop)
    if buffer ≠ s.buffer then some { s with stale := stale, halted := true }
    else if i = stop then some { s with pc := .clear stop, stale := stale }
    else
      (s.threads[i]?).map fun t =>
        { s with pc := if t.joinable then .joining buffer i stop else .loop buffer (i + 1) stop
                 stale := stale }
  | _ => none

/-- `join` returns when the thread has ended, and then clears the object it was called on. -/
def join (s : Process) : Option Process :=
  match s.pc with
  | .joining buffer i stop =>
    (s.threads[i]?).bind fun t =>
      match s.manager.threads[t.thread]? with
      | some (.finished _) =>
        if buffer ≠ s.buffer then some { s with stale := true, halted := true }
        else
          some { s with threads := s.threads.set i { t with joinable := false }
                        joined := s.joined ++ [t.thread]
                        pc := .loop buffer (i + 1) stop }
      | _ => none
  | _ => none

/-- All objects are destroyed, which ends the process if one of them is joinable; the buffer
stays. -/
def destroyAll (s : Process) : Process :=
  { s with threads := []
           destroyed := s.destroyed ++ s.threads.map Handle.thread
           halted := s.threads.any Handle.joinable }

def clear (s : Process) : Option Process :=
  match s.pc with
  | .clear _ => some { s.destroyAll with pc := .idle }
  | _ => none

/-- The vector is destroyed with the manager, after the destructor's `Join`. -/
def destroy (s : Process) : Option Process :=
  match s.pc, s.life with
  | .idle, .ending => some { s.destroyAll with life := .ended }
  | _, _ => none

def step (s : Process) (a : Act) : Option Process :=
  if s.halted then none
  else
    match a with
    | .initTLS t => s.manage (.initTLS t)
    | .finish t => s.manage (.finish t)
    | .launch caller grown => s.launch caller grown
    | .range destructor => s.range destructor
    | .test => s.test
    | .join => s.join
    | .clear => s.clear
    | .destroy => s.destroy

/-- Launches by the main thread and by callbacks, in any order with the steps of `Join`. -/
def machine : Machine Process Act where
  start := {}
  step := step

/-- What `push_back` does to the vector and its buffer, and what it leaves as it is. -/
theorem pushBack_spec {s s' : Process} {handle : Handle} {grown : Option ℕ}
    (hpush : s.pushBack handle grown = some s') :
    s'.threads = s.threads ++ [handle] ∧
      s'.buffer = s.buffer + (if grown.isSome then 1 else 0) ∧
      s'.manager = s.manager ∧ s'.pc = s.pc ∧ s'.life = s.life ∧ s'.joined = s.joined ∧
      s'.destroyed = s.destroyed ∧ s'.stale = s.stale ∧ s'.halted = s.halted := by
  cases grown with
  | none =>
    obtain ⟨_, heq⟩ := Option.ite_none_right_eq_some.mp hpush
    cases heq
    exact ⟨rfl, rfl, rfl, rfl, rfl, rfl, rfl, rfl, rfl⟩
  | some capacity =>
    obtain ⟨_, heq⟩ := Option.ite_none_right_eq_some.mp hpush
    cases heq
    exact ⟨rfl, rfl, rfl, rfl, rfl, rfl, rfl, rfl, rfl⟩

/-- What `Launch` does, and when it may run. -/
theorem launch_spec {s s' : Process} {caller : ℕ} {grown : Option ℕ}
    (hstep : s.launch caller grown = some s') :
    ¬ (caller = 0 ∧ s.Busy) ∧
      (∃ lThreadId, s.manager.threads[caller]? = some (.running lThreadId)) ∧
      s'.threads = s.threads ++ [⟨s.manager.threads.length, true⟩] ∧
      s'.buffer = s.buffer + (if grown.isSome then 1 else 0) ∧
      s'.manager = { s.manager with threads := s.manager.threads ++ [.starting] } ∧
      s'.pc = s.pc ∧ s'.life = s.life ∧ s'.joined = s.joined ∧
      s'.destroyed = s.destroyed ∧ s'.stale = s.stale ∧ s'.halted = s.halted := by
  obtain ⟨hfree, hbody⟩ := Option.ite_none_left_eq_some.mp hstep
  obtain ⟨manager, hmanager, hpush⟩ := Option.bind_eq_some_iff.mp hbody
  obtain ⟨hrunning, rfl⟩ := ThreadManager.launch_spec hmanager
  obtain ⟨hthreads, hbuffer, hrest⟩ := pushBack_spec hpush
  exact ⟨fun h => hfree (.inr h), hrunning, hthreads, hbuffer, hrest⟩

theorem range_spec {s s' : Process} {destructor : Bool} (hstep : s.range destructor = some s') :
    s.pc = .idle ∧ s.life = .alive ∧
      s' = { s with pc := .loop s.buffer 0 s.threads.length
                    life := if destructor then .ending else .alive } := by
  unfold range at hstep
  split at hstep
  case h_1 hpc hlife =>
    cases hstep
    exact ⟨hpc, hlife, rfl⟩
  case h_2 => cases hstep

/-- The test of an outdated range is remembered; one of a range that is up to date goes on
to the join of the element, if that is joinable. -/
theorem test_spec {s s' : Process} (hstep : s.test = some s') :
    ∃ buffer i stop, s.pc = .loop buffer i stop ∧
      s'.stale = (s.stale || decide (s.Outdated buffer stop)) ∧
      s'.destroyed = s.destroyed ∧ s'.joined = s.joined ∧
      (s'.stale = false → (i = stop ∧ s' = { s with pc := .clear stop }) ∨
        (i ≠ stop ∧ ∃ t, s.threads[i]? = some t ∧
          s' = { s with pc := if t.joinable then .joining buffer i stop
                              else .loop buffer (i + 1) stop })) := by
  unfold test at hstep
  split at hstep
  case h_2 => cases hstep
  case h_1 buffer i stop hpc =>
    refine ⟨buffer, i, stop, hpc, ?_⟩
    split at hstep
    case isTrue hmoved =>
      cases hstep
      exact ⟨rfl, rfl, rfl, fun h => by simp [Outdated, hmoved] at h⟩
    case isFalse hkept =>
      split at hstep
      case isTrue hend =>
        cases hstep
        refine ⟨rfl, rfl, rfl, fun h => .inl ⟨hend, ?_⟩⟩
        obtain ⟨hfresh, hcurrent⟩ := Bool.or_eq_false_iff.mp h
        simp only [hfresh, hcurrent, Bool.or_false]
      case isFalse hmore =>
        obtain ⟨t, ht, rfl⟩ := Option.map_eq_some_iff.mp hstep
        refine ⟨rfl, rfl, rfl, fun h => .inr ⟨hmore, t, ht, ?_⟩⟩
        obtain ⟨hfresh, hcurrent⟩ := Bool.or_eq_false_iff.mp h
        simp only [hfresh, hcurrent, Bool.or_false]

/-- A `join` on freed storage is remembered; otherwise the element is joined. -/
theorem join_spec {s s' : Process} (hstep : s.join = some s') :
    ∃ buffer i stop t lThreadId, s.pc = .joining buffer i stop ∧ s.threads[i]? = some t ∧
      s.manager.threads[t.thread]? = some (.finished lThreadId) ∧
      s' = if buffer ≠ s.buffer then { s with stale := true, halted := true }
        else
          { s with threads := s.threads.set i { t with joinable := false }
                   joined := s.joined ++ [t.thread]
                   pc := .loop buffer (i + 1) stop } := by
  unfold join at hstep
  split at hstep
  case h_2 => cases hstep
  case h_1 buffer i stop hpc =>
    obtain ⟨t, ht, hbody⟩ := Option.bind_eq_some_iff.mp hstep
    split at hbody
    case h_2 => cases hbody
    case h_1 lThreadId hfinished =>
      refine ⟨buffer, i, stop, t, lThreadId, hpc, ht, hfinished, ?_⟩
      split at hbody
      case isTrue h =>
        cases hbody
        exact (if_pos h).symm
      case isFalse h =>
        cases hbody
        exact (if_neg h).symm

theorem clear_spec {s s' : Process} (hstep : s.clear = some s') :
    ∃ stop, s.pc = .clear stop ∧ s' = { s.destroyAll with pc := .idle } := by
  unfold clear at hstep
  split at hstep
  case h_1 stop hpc =>
    cases hstep
    exact ⟨stop, hpc, rfl⟩
  case h_2 => cases hstep

theorem destroy_spec {s s' : Process} (hstep : s.destroy = some s') :
    s.pc = .idle ∧ s.life = .ending ∧ s' = { s.destroyAll with life := .ended } := by
  unfold destroy at hstep
  split at hstep
  case h_1 hpc hlife =>
    cases hstep
    exact ⟨hpc, hlife, rfl⟩
  case h_2 => cases hstep

end Process

end CppServer.ThreadJoin
