import CppServer.DeadLockProfiler.Nesting

namespace CppServer.DeadLockProfiler

open Base Base.Graph Relation

section Map

variable {A Name : Type} (f : A → Name)

def Call.map : Call A → Call Name
  | .push a => .push (f a)
  | .pop a => .pop (f a)

theorem stackOf_map (calls : List (Call A)) :
    stackOf (calls.map (Call.map f)) = (stackOf calls).map f := by
  induction calls using List.reverseRecOn with
  | nil => rfl
  | append_singleton calls c ih =>
    rw [List.map_append, List.map_singleton]
    cases c with
    | push a => rw [Call.map, stackOf_push, stackOf_push, ih, List.map_cons]
    | pop a => rw [Call.map, stackOf_pop, stackOf_pop, ih, List.map_tail]

theorem WellNested.map {calls : List (Call A)} (hnested : WellNested calls) :
    WellNested (calls.map (Call.map f)) := by
  induction calls using List.reverseRecOn with
  | nil =>
    intro before name after hsplit
    simp at hsplit
  | append_singleton calls c ih =>
    obtain ⟨hnested, hlast⟩ := wellNested_snoc.mp hnested
    rw [List.map_append, List.map_singleton]
    refine wellNested_snoc.mpr ⟨ih hnested, fun name hname => ?_⟩
    cases c with
    | push a => cases hname
    | pop a =>
      cases hname
      rw [stackOf_map, List.head?_map, hlast a rfl, Option.map_some]

end Map

/-- A path leads from a name on the stack to the name that is pushed next. -/
theorem reaches_pushed {Name : Type} {calls : List (Call Name)} {x name : Name}
    (hx : x ∈ stackOf calls) : ReflTransGen (Above (calls ++ [.push name])) x name := by
  cases htop : (stackOf calls).head? with
  | none =>
    rw [List.head?_eq_none_iff.mp htop] at hx
    cases hx
  | some top =>
    have hpath : ReflTransGen (Above (calls ++ [.push name])) x top :=
      ReflTransGen.mono (fun x y habove => habove.append _) _ _ (reaches_top hx htop)
    by_cases hne : top = name
    · exact hne ▸ hpath
    · exact hpath.tail ((above_push calls name top name).mpr (.inr ⟨htop, rfl, hne⟩))

/-- An acquisition through `READ_LOCK_IDX(idx)` or `WRITE_LOCK_IDX(idx)`, of
`_locks[idx]` of the object in a member function of the class. -/
structure Acquisition (Obj Class : Type) where
  obj : Obj
  idx : ℕ
  cls : Class
deriving DecidableEq

variable {Obj Class Name : Type}

def Acquisition.lock (a : Acquisition Obj Class) : Obj × ℕ := (a.obj, a.idx)

/-- The guard passes `typeid(this).name()`, the name of the class, when it is
constructed and when it is destroyed. -/
def guards (typeName : Class → Name) (calls : List (Call (Acquisition Obj Class))) :
    List (Call Name) :=
  calls.map (Call.map fun a => typeName a.cls)

/-- A lock is acquired only in member functions of the classes that its object has. -/
def Permitted (members : Obj → Class → Prop) (calls : List (Call (Acquisition Obj Class))) : Prop :=
  ∀ a, .push a ∈ calls → members a.obj a.cls

/-- Whether the thread holds a lock after the calls. -/
def Holds (calls : List (Call (Acquisition Obj Class))) (lock : Obj × ℕ) : Prop :=
  ∃ a ∈ stackOf calls, a.lock = lock

/-- `l₂` is acquired while `l₁` is held and `l₂` is not, later both are released, and
at last `l₁` is acquired while `l₂` is held and `l₁` is not. -/
def Inverts (l₁ l₂ : Obj × ℕ) (calls : List (Call (Acquisition Obj Class))) : Prop :=
  ∃ before second between between' first,
    calls = before ++ Call.push second :: (between ++ between') ++ [Call.push first] ∧
    second.lock = l₂ ∧ Holds before l₁ ∧ ¬ Holds before l₂ ∧
    ¬ Holds (before ++ Call.push second :: between) l₁ ∧
    ¬ Holds (before ++ Call.push second :: between) l₂ ∧
    first.lock = l₁ ∧ Holds (before ++ Call.push second :: (between ++ between')) l₂ ∧
    ¬ Holds (before ++ Call.push second :: (between ++ between')) l₁

instance [DecidableEq Obj] (calls : List (Call (Acquisition Obj Class))) (lock : Obj × ℕ) :
    Decidable (Holds calls lock) :=
  inferInstanceAs (Decidable (∃ a ∈ stackOf calls, a.lock = lock))

/-- The acquisitions end in a crash of the profiler. -/
def Caught [DecidableEq Name] (typeName : Class → Name)
    (calls : List (Call (Acquisition Obj Class))) : Prop :=
  ∃ cause report, Profiler.run (guards typeName calls) = .error (.crash cause report)

section

variable {typeName : Class → Name} {members : Obj → Class → Prop} {l₁ l₂ : Obj × ℕ}

/-- From a held lock the names lead to the next one acquired. -/
theorem reaches_guard (typeName : Class → Name) {calls rest : List (Call (Acquisition Obj Class))}
    {a : Acquisition Obj Class} {lock : Obj × ℕ}
    (hpermitted : Permitted members (calls ++ .push a :: rest)) (hholds : Holds calls lock) :
    ∃ c, members lock.1 c ∧ members a.obj a.cls ∧
      ReflTransGen (Above (guards typeName (calls ++ .push a :: rest))) (typeName c)
        (typeName a.cls) := by
  obtain ⟨x, hx, rfl⟩ := hholds
  refine ⟨x.cls, hpermitted x (List.mem_append_left _ (push_mem_of_mem_stackOf hx)),
    hpermitted a (by simp), ?_⟩
  have hmem : typeName x.cls ∈ stackOf (guards typeName calls) := by
    rw [guards, stackOf_map]
    exact List.mem_map_of_mem hx
  have hsplit : guards typeName (calls ++ .push a :: rest) =
      (guards typeName calls ++ [.push (typeName a.cls)]) ++ guards typeName rest := by
    simp [guards, Call.map]
  rw [hsplit]
  exact ReflTransGen.mono (fun x y habove => habove.append _) _ _ (reaches_pushed hmem)

/-- Every inversion closes a cycle of names, if both locks have one name each. -/
theorem Inverts.not_acyclic {calls : List (Call (Acquisition Obj Class))}
    (hnames : ∀ c c' d d', members l₁.1 c → members l₁.1 c' → members l₂.1 d → members l₂.1 d' →
      typeName c = typeName c' ∧ typeName d = typeName d' ∧ typeName c ≠ typeName d)
    (hpermitted : Permitted members calls) (hinverts : Inverts l₁ l₂ calls) :
    ¬ Acyclic (Above (guards typeName calls)) := by
  obtain ⟨before, second, between, between', first, rfl, rfl, hfirst, -, -, -, rfl, hsecond, -⟩ :=
    hinverts
  rw [List.append_assoc, List.cons_append] at hpermitted
  obtain ⟨c, hc, hd, hpath⟩ := reaches_guard typeName hpermitted hfirst
  rw [← List.cons_append, ← List.append_assoc] at hpermitted hpath
  obtain ⟨d, hd', hc', hpath'⟩ := reaches_guard typeName hpermitted hsecond
  obtain ⟨hcname, hdname, hne⟩ := hnames c first.cls second.cls d hc hc' hd hd'
  rw [← hcname, ← hdname] at hpath'
  intro hacyclic
  rcases reflTransGen_iff_eq_or_transGen.mp hpath with heq | htrans
  · exact hne heq.symm
  · exact hacyclic _ (htrans.trans_left hpath')

/-- The shortest inversion, each acquisition in a class of its own. -/
def shortest (l₁ l₂ : Obj × ℕ) (c c' d d' : Class) : List (Call (Acquisition Obj Class)) :=
  [.push ⟨l₁.1, l₁.2, c⟩, .push ⟨l₂.1, l₂.2, d⟩, .pop ⟨l₂.1, l₂.2, d⟩, .pop ⟨l₁.1, l₁.2, c⟩,
    .push ⟨l₂.1, l₂.2, d'⟩, .push ⟨l₁.1, l₁.2, c'⟩]

theorem shortest_eq (l₁ l₂ : Obj × ℕ) (c c' d d' : Class) :
    shortest l₁ l₂ c c' d d' = [Call.push ⟨l₁.1, l₁.2, c⟩] ++ Call.push ⟨l₂.1, l₂.2, d⟩ ::
      ([Call.pop ⟨l₂.1, l₂.2, d⟩, Call.pop ⟨l₁.1, l₁.2, c⟩] ++ [Call.push ⟨l₂.1, l₂.2, d'⟩]) ++
        [Call.push ⟨l₁.1, l₁.2, c'⟩] :=
  rfl

theorem holds_singleton {calls : List (Call (Acquisition Obj Class))} {a : Acquisition Obj Class}
    (hstack : stackOf calls = [a]) (lock : Obj × ℕ) : Holds calls lock ↔ a.lock = lock := by
  simp [Holds, hstack]

theorem inverts_shortest (hne : l₁ ≠ l₂) (c c' d d' : Class) :
    Inverts l₁ l₂ (shortest l₁ l₂ c c' d d') := by
  refine ⟨_, _, _, _, _, shortest_eq l₁ l₂ c c' d d', rfl, (holds_singleton rfl l₁).mpr rfl,
    fun h => hne ((holds_singleton (a := ⟨l₁.1, l₁.2, c⟩) rfl l₂).mp h), ?_, ?_, rfl,
    (holds_singleton rfl l₂).mpr rfl,
    fun h => hne ((holds_singleton (a := ⟨l₂.1, l₂.2, d'⟩) rfl l₁).mp h).symm⟩
  · rintro ⟨a, ha, -⟩
    cases ha
  · rintro ⟨a, ha, -⟩
    cases ha

theorem wellNested_shortest (c c' d d' : Class) : WellNested (shortest l₁ l₂ c c' d d') := by
  have hpush {calls : List (Call (Acquisition Obj Class))} (a : Acquisition Obj Class)
      (hcalls : WellNested calls) : WellNested (calls ++ [.push a]) :=
    wellNested_snoc.mpr ⟨hcalls, nofun⟩
  have hpop {calls : List (Call (Acquisition Obj Class))} {a : Acquisition Obj Class}
      (hcalls : WellNested calls) (htop : (stackOf calls).head? = some a) :
      WellNested (calls ++ [.pop a]) :=
    wellNested_snoc.mpr ⟨hcalls, fun _ heq => by cases heq; exact htop⟩
  have hnil : WellNested ([] : List (Call (Acquisition Obj Class))) := by simp [WellNested]
  exact hpush _ (hpush _ (hpop (hpop (hpush _ (hpush _ hnil)) rfl) rfl))

/-- The edges of the shortest inversion: one in each half. -/
theorem above_shortest {c c' d d' : Class} {x y : Name}
    (habove : Above (guards typeName (shortest l₁ l₂ c c' d d')) x y) :
    x ≠ y ∧ (x = typeName c ∧ y = typeName d ∨ x = typeName d' ∧ y = typeName c') := by
  have hne : x ≠ y := by
    obtain ⟨before, after, -, -, hne⟩ := habove
    exact hne
  refine ⟨hne, ?_⟩
  have hsplit : guards typeName (shortest l₁ l₂ c c' d d') =
      [] ++ [Call.push (typeName c)] ++ [Call.push (typeName d)] ++ [Call.pop (typeName d)] ++
        [Call.pop (typeName c)] ++ [Call.push (typeName d')] ++ [Call.push (typeName c')] :=
    rfl
  rw [hsplit, above_push, above_push, above_pop, above_pop, above_push, above_push] at habove
  rcases habove with ((((habove | ⟨hhead, -⟩) | ⟨hhead, rfl, -⟩) | ⟨hhead, -⟩) | ⟨hhead, rfl, -⟩)
  · obtain ⟨before, after, hcalls, -⟩ := habove
    simp at hcalls
  · cases hhead
  · cases hhead
    exact .inl ⟨rfl, rfl⟩
  · cases hhead
  · cases hhead
    exact .inr ⟨rfl, rfl⟩

variable [DecidableEq Name]

/-- All inversions of two locks are caught exactly if each of the two is acquired under
one name only, and the names differ. -/
theorem inversions_caught_iff (typeName : Class → Name) (members : Obj → Class → Prop)
    (hne : l₁ ≠ l₂) :
    (∀ calls, WellNested calls → Permitted members calls → Inverts l₁ l₂ calls →
        Caught typeName calls) ↔
      ∀ c c' d d', members l₁.1 c → members l₁.1 c' → members l₂.1 d → members l₂.1 d' →
        typeName c = typeName c' ∧ typeName d = typeName d' ∧ typeName c ≠ typeName d := by
  constructor
  · intro hcaught c c' d d' hc hc' hd hd'
    have hpermitted : Permitted members (shortest l₁ l₂ c c' d d') := by
      intro a ha
      simp only [shortest, List.mem_cons, Call.push.injEq, reduceCtorEq, List.not_mem_nil,
        or_false, false_or] at ha
      rcases ha with rfl | rfl | rfl | rfl
      · exact hc
      · exact hd
      · exact hd'
      · exact hc'
    obtain ⟨cause, report, hcrash⟩ := hcaught _ (wellNested_shortest c c' d d') hpermitted
      (inverts_shortest hne c c' d d')
    by_contra hnames
    have hacyclic : Acyclic (Above (guards typeName (shortest l₁ l₂ c c' d d'))) :=
      acyclic_of_two_edges (fun x y => above_shortest) hnames
    obtain ⟨s, hok⟩ :=
      (Profiler.run_returns_iff ((wellNested_shortest c c' d d').map _)).mpr hacyclic
    rw [guards] at hcrash
    rw [hok] at hcrash
    cases hcrash
  · intro hnames calls hnested hpermitted hinverts
    rcases Profiler.run_ends (hnested.map fun a => typeName a.cls) with ⟨s, -, hrecords⟩ | ⟨hcrash, -⟩
    · exact absurd hrecords.acyclic_above (hinverts.not_acyclic hnames hpermitted)
    · exact hcrash

/-- Locks of two objects, each of a class of its own. -/
theorem inversions_caught_iff_classes :
    Caught (fun cls : Bool => cls) (shortest (false, 0) (true, 0) false false true true) := by
  have hnames : ∀ c c' d d' : Bool, false = c → false = c' → true = d → true = d' →
      c = c' ∧ d = d' ∧ c ≠ d := by
    decide
  have hcaught := (inversions_caught_iff (fun cls : Bool => cls) (fun obj cls : Bool => obj = cls)
    (show ((false, 0) : Bool × ℕ) ≠ (true, 0) by decide)).mpr hnames
  refine hcaught _ (wellNested_shortest false false true true) ?_
    (inverts_shortest (by decide) false false true true)
  intro a ha
  simp only [shortest, List.mem_cons, Call.push.injEq, reduceCtorEq, List.not_mem_nil, or_false,
    false_or] at ha
  rcases ha with rfl | rfl | rfl | rfl
  all_goals rfl

/-- Locks of two objects of one class: an inversion passes unnoticed. -/
theorem inversion_of_one_class :
    WellNested (shortest (false, 0) (true, 0) () () () ()) ∧
      Permitted (fun (_ : Bool) (_ : Unit) => True) (shortest (false, 0) (true, 0) () () () ()) ∧
      Inverts (false, 0) (true, 0) (shortest (false, 0) (true, 0) () () () ()) ∧
      ¬ Caught (fun _ : Unit => 'a') (shortest ((false, 0) : Bool × ℕ) (true, 0) () () () ()) := by
  refine ⟨wellNested_shortest () () () (), fun _ _ => trivial,
    inverts_shortest (by decide) () () () (), ?_⟩
  rintro ⟨cause, report, hcrash⟩
  cases hcrash

end

end CppServer.DeadLockProfiler
