import CppServer.DeadLockProfiler.Ordering

namespace CppServer.DeadLockProfiler

open Base Base.Graph Relation

variable {Name : Type}

/-- The names pushed and not popped again, the last one first. -/
def stackOf (calls : List (Call Name)) : List Name :=
  calls.foldl (fun stack c =>
    match c with
    | .push name => name :: stack
    | .pop _ => stack.tail) []

/-- Every pop is of the name that was pushed last and not popped yet. -/
def WellNested (calls : List (Call Name)) : Prop :=
  ∀ before name after, calls = before ++ .pop name :: after → (stackOf before).head? = some name

/-- `y` was pushed directly above `x`, another name. -/
def Above (calls : List (Call Name)) (x y : Name) : Prop :=
  ∃ before after, calls = before ++ .push y :: after ∧ (stackOf before).head? = some x ∧ x ≠ y

/-- A property of the calls of one kind and what stands before each, by position. -/
theorem forall_call_iff {calls : List (Call Name)} {P : List (Call Name) → Name → Prop}
    {kind : Name → Call Name} {nameOf : Call Name → Option Name}
    (hkind : ∀ c name, nameOf c = some name ↔ c = kind name) :
    (∀ before name after, calls = before ++ kind name :: after → P before name) ↔
      ∀ k : Fin calls.length, ∀ name ∈ nameOf calls[k], P (calls.take k) name := by
  constructor
  · intro h k name hname
    apply h _ _ (calls.drop (k + 1))
    rw [← (hkind calls[k] name).mp hname]
    simp
  · rintro h before name after rfl
    have hk := h ⟨before.length, by simp⟩ name
    simpa [hkind] using hk

def Call.popped : Call Name → Option Name
  | .pop name => some name
  | .push _ => none

def Call.pushed : Call Name → Option Name
  | .push name => some name
  | .pop _ => none

theorem Call.popped_eq_some (c : Call Name) (name : Name) : c.popped = some name ↔ c = .pop name := by
  cases c <;> simp [popped]

theorem Call.pushed_eq_some (c : Call Name) (name : Name) : c.pushed = some name ↔ c = .push name := by
  cases c <;> simp [pushed]

/-- Such a property is decided position by position. -/
@[reducible] def decidableForallCall {P : List (Call Name) → Name → Prop} {kind : Name → Call Name}
    {nameOf : Call Name → Option Name} [∀ earlier name, Decidable (P earlier name)]
    (hkind : ∀ c name, nameOf c = some name ↔ c = kind name) (calls : List (Call Name)) :
    Decidable (∀ before name after, calls = before ++ kind name :: after → P before name) :=
  decidable_of_iff' _ (forall_call_iff hkind)

instance [DecidableEq Name] (calls : List (Call Name)) : Decidable (WellNested calls) :=
  decidableForallCall Call.popped_eq_some calls

theorem stackOf_push (calls : List (Call Name)) (name : Name) :
    stackOf (calls ++ [.push name]) = name :: stackOf calls := by
  rw [stackOf, List.foldl_append]
  rfl

theorem stackOf_pop (calls : List (Call Name)) (name : Name) :
    stackOf (calls ++ [.pop name]) = (stackOf calls).tail := by
  rw [stackOf, List.foldl_append]
  rfl

theorem wellNested_snoc {calls : List (Call Name)} {c : Call Name} :
    WellNested (calls ++ [c]) ↔
      WellNested calls ∧ ∀ name, c = .pop name → (stackOf calls).head? = some name := by
  constructor
  · intro hnested
    refine ⟨?_, fun name heq => hnested calls name [] (by rw [heq])⟩
    rintro before name after rfl
    exact hnested before name (after ++ [c]) (by simp)
  · rintro ⟨hnested, hlast⟩ before name after hsplit
    rcases Profiler.split_snoc.mp hsplit with ⟨_, rfl, heq⟩ | ⟨rest, _, hcalls⟩
    · exact hlast name heq
    · exact hnested before name rest hcalls

theorem above_push (calls : List (Call Name)) (name x y : Name) :
    Above (calls ++ [.push name]) x y ↔
      Above calls x y ∨ ((stackOf calls).head? = some x ∧ y = name ∧ x ≠ name) := by
  constructor
  · rintro ⟨before, after, hsplit, htop, hne⟩
    rcases Profiler.split_snoc.mp hsplit with ⟨rfl, rfl, heq⟩ | ⟨rest, rfl, hcalls⟩
    · cases heq
      exact .inr ⟨htop, rfl, hne⟩
    · exact .inl ⟨before, rest, hcalls, htop, hne⟩
  · rintro (⟨before, after, rfl, htop, hne⟩ | ⟨htop, rfl, hne⟩)
    · exact ⟨before, after ++ [.push name], by simp, htop, hne⟩
    · exact ⟨calls, [], rfl, htop, hne⟩

theorem above_pop (calls : List (Call Name)) (name x y : Name) :
    Above (calls ++ [.pop name]) x y ↔ Above calls x y := by
  constructor
  · rintro ⟨before, after, hsplit, htop, hne⟩
    rcases Profiler.split_snoc.mp hsplit with ⟨_, _, heq⟩ | ⟨rest, rfl, hcalls⟩
    · cases heq
    · exact ⟨before, rest, hcalls, htop, hne⟩
  · rintro ⟨before, after, rfl, htop, hne⟩
    exact ⟨before, after ++ [.pop name], by simp, htop, hne⟩

theorem Above.append {calls : List (Call Name)} {x y : Name} (habove : Above calls x y)
    (rest : List (Call Name)) : Above (calls ++ rest) x y := by
  obtain ⟨before, after, rfl, htop, hne⟩ := habove
  exact ⟨before, after ++ rest, by simp, htop, hne⟩

/-- Neighbours on the stack are equal, or the upper was pushed above the lower. -/
theorem adjacent_stackOf (calls : List (Call Name)) :
    (stackOf calls).IsChain fun upper lower => upper = lower ∨ Above calls lower upper := by
  induction calls using List.reverseRecOn with
  | nil => exact .nil
  | append_singleton calls c ih =>
    have hold (calls' : List (Call Name)) : (stackOf calls).IsChain fun upper lower =>
        upper = lower ∨ Above (calls ++ calls') lower upper :=
      ih.imp fun _ _ h => h.imp_right fun habove => habove.append calls'
    cases c with
    | push name =>
      rw [stackOf_push]
      refine List.isChain_cons.mpr ⟨fun top htop => ?_, hold _⟩
      by_cases heq : name = top
      · exact .inl heq
      · exact .inr ((above_push calls name top name).mpr (.inr ⟨htop, rfl, Ne.symm heq⟩))
    | pop name =>
      rw [stackOf_pop]
      exact (hold _).tail

theorem push_mem_of_mem_stackOf {calls : List (Call Name)} {x : Name} (hx : x ∈ stackOf calls) :
    .push x ∈ calls := by
  induction calls using List.reverseRecOn with
  | nil => cases hx
  | append_singleton calls c ih =>
    cases c with
    | push name =>
      rw [stackOf_push] at hx
      rcases List.mem_cons.mp hx with rfl | hx
      · exact List.mem_append_right calls (List.mem_singleton.mpr rfl)
      · exact List.mem_append_left _ (ih hx)
    | pop name =>
      rw [stackOf_pop] at hx
      exact List.mem_append_left _ (ih (List.mem_of_mem_tail hx))

/-- From a name on the stack the edges lead up to the top. -/
theorem reaches_top {calls : List (Call Name)} {x top : Name} (hx : x ∈ stackOf calls)
    (htop : (stackOf calls).head? = some top) : ReflTransGen (Above calls) x top := by
  obtain ⟨rest, hstack⟩ := List.head?_eq_some_iff.mp htop
  have hchain := adjacent_stackOf calls
  rw [hstack] at hchain hx
  exact reflTransGen_of_isChain hchain hx

/-- An edge from a name to one below it on the stack closes a cycle. -/
theorem not_acyclic_of_push {calls : List (Call Name)} {name top : Name}
    (hmem : name ∈ stackOf calls) (htop : (stackOf calls).head? = some top) (hne : top ≠ name) :
    ¬ Acyclic (Above (calls ++ [.push name])) := by
  intro hacyclic
  have hpath : ReflTransGen (Above (calls ++ [.push name])) name top :=
    ReflTransGen.mono (fun x y habove => habove.append _) _ _ (reaches_top hmem htop)
  have hedge : Above (calls ++ [.push name]) top name :=
    (above_push calls name top name).mpr (.inr ⟨htop, rfl, hne⟩)
  exact hacyclic name (TransGen.tail' hpath hedge)

namespace Profiler

variable [DecidableEq Name] {calls : List (Call Name)} {s s' : Profiler Name} {name : Name}

/-- The profiler after calls that have returned: it knows the pushed names, its stack is
theirs, and its history has the edges between neighbours on the stack. -/
structure Records (calls : List (Call Name)) (s : Profiler Name) : Prop extends Inv s where
  known : ∀ x, x ∈ s.nameToId ↔ .push x ∈ calls
  held : s.held = stackOf calls
  above : ∀ x y, NameEdge s x y ↔ Above calls x y

theorem Records.acyclic_above (hrecords : Records calls s) : Acyclic (Above calls) :=
  (hrecords.acyclic_nameEdge hrecords.acyclic).of_le_transGen fun x y habove =>
    .single ((hrecords.above x y).mpr habove)

theorem records_nil : Records [] ({} : Profiler Name) := by
  refine ⟨inv_fresh, fun x => ?_, rfl, fun x y => ⟨?_, ?_⟩⟩
  · simp
  · rintro ⟨a, b, hx, -⟩
    simp at hx
  · rintro ⟨before, after, hsplit, -⟩
    simp at hsplit

/-- A push returns, or crashes because its edge closes a cycle. -/
theorem Records.push (hrecords : Records calls s) (name : Name) :
    (∃ s', s.pushLock name = .ok s' ∧ Records (calls ++ [.push name]) s') ∨
      (∃ report, s.pushLock name = .error (.crash .deadlockDetected report)) ∧
        ¬ Acyclic (Above (calls ++ [.push name])) := by
  obtain ⟨s', hheld, hknown, hedges, hcases⟩ := pushLock_spec hrecords.toInv name
  have habove (x y : Name) : NameEdge s' x y ↔ Above (calls ++ [.push name]) x y := by
    rw [hedges, above_push, hrecords.above, hrecords.held]
  rcases hcases with ⟨hok, hinv⟩ | ⟨hcrash, hcyclic⟩
  · refine .inl ⟨s', hok, hinv, fun x => ?_, ?_, habove⟩
    · rw [hknown, hrecords.known, List.mem_append, List.mem_singleton, Call.push.injEq, or_comm]
    · rw [hheld, hrecords.held, stackOf_push]
  · exact .inr ⟨hcrash, fun hacyclic => hcyclic (hacyclic.of_le_transGen fun x y hedge =>
      .single ((habove x y).mp hedge))⟩

/-- A pop of a pushed name returns if it is the last one, and crashes otherwise. -/
theorem Records.pop (hrecords : Records calls s) (hknown : .push name ∈ calls) :
    (∃ s', (stackOf calls).head? = some name ∧ s.popLock name = .ok s' ∧
        Records (calls ++ [.pop name]) s') ∨
      (stackOf calls).head? ≠ some name ∧ ∃ cause, s.popLock name = .error (.crash cause []) := by
  rcases popLock_spec hrecords.toInv ((hrecords.known name).mpr hknown) with
    ⟨rest, s', hheld, hok, hinv, hheld', hnames, hedges⟩ | ⟨hhead, hcrash⟩
  · rw [hrecords.held] at hheld
    refine .inl ⟨s', by rw [hheld, List.head?_cons], hok, hinv, fun x => ?_, ?_, fun x y => ?_⟩
    · rw [hnames, hrecords.known, List.mem_append, List.mem_singleton]
      simp
    · rw [hheld', stackOf_pop, hheld, List.tail_cons]
    · rw [hedges, hrecords.above, above_pop]
  · exact .inr ⟨hrecords.held ▸ hhead, hcrash⟩

/-- Well-nested calls return exactly if the pushes of neighbours on the stack have no
cycle, and otherwise end in a crash. -/
theorem run_ends (hnested : WellNested calls) :
    (∃ s, run calls = .ok s ∧ Records calls s) ∨
      (∃ cause report, run calls = .error (.crash cause report)) ∧ ¬ Acyclic (Above calls) := by
  induction calls using List.reverseRecOn with
  | nil => exact .inl ⟨{}, rfl, records_nil⟩
  | append_singleton calls c ih =>
    obtain ⟨hnested, hlast⟩ := wellNested_snoc.mp hnested
    rw [run_snoc]
    rcases ih hnested with ⟨s, hrun, hrecords⟩ | ⟨⟨cause, report, hrun⟩, hcyclic⟩
    · rw [hrun, ok_bind]
      cases c with
      | push name =>
        rcases hrecords.push name with hok | ⟨⟨report, hcrash⟩, hcyclic⟩
        · exact .inl hok
        · exact .inr ⟨⟨_, report, hcrash⟩, hcyclic⟩
      | pop name =>
        have htop := hlast name rfl
        have hknown := push_mem_of_mem_stackOf (List.mem_of_mem_head? (Option.mem_def.mpr htop))
        rcases hrecords.pop hknown with ⟨s', -, hok, hrecords⟩ | ⟨hhead, -⟩
        · exact .inl ⟨s', hok, hrecords⟩
        · exact absurd htop hhead
    · rw [hrun]
      exact .inr ⟨⟨cause, report, rfl⟩, fun hacyclic => hcyclic
        (hacyclic.of_le_transGen fun x y habove => .single (habove.append _))⟩

theorem run_returns_iff (hnested : WellNested calls) :
    (∃ s, run calls = .ok s) ↔ Acyclic (Above calls) := by
  rcases run_ends hnested with ⟨s, hrun, hrecords⟩ | ⟨⟨cause, report, hrun⟩, hcyclic⟩
  · exact iff_of_true ⟨s, hrun⟩ hrecords.acyclic_above
  · refine iff_of_false ?_ hcyclic
    rintro ⟨s, hok⟩
    rw [hrun] at hok
    cases hok

end Profiler

end CppServer.DeadLockProfiler
