import CppServer.DeadLockProfiler.Calls

namespace CppServer.DeadLockProfiler

open Base Base.Graph

namespace Search

/-- From a call of `Dfs(here)` in the state `t`, the loop over the successors comes to `there`
in the state `u`. -/
def Comes (history : History) (fuel here : ℕ) (t : Search) (there : ℕ) (u : Search) : Prop :=
  ∃ t' nextSet before after, t.order here = none ∧ t.discover here = .ok t' ∧
    history.lookup here = some nextSet ∧ nextSet.toList = before ++ there :: after ∧
    before.foldlM (visit (dfs history fuel) here) t' = .ok u

/-- The calls of `Dfs` in a check: those of the loop over all locks, and those for the
successors that are not discovered yet. -/
inductive Called (history : History) (lockCount : ℕ) : ℕ → ℕ → Search → Prop
  | root {lockId : ℕ} {s : Search} : lockId < lockCount →
      (List.range lockId).foldlM (fun s lockId => dfs history (lockCount + 1) lockId s)
        (fresh lockCount) = .ok s →
      Called history lockCount (lockCount + 1) lockId s
  | child {fuel here there : ℕ} {t u v : Search} : Called history lockCount (fuel + 1) here t →
      Comes history fuel here t there u → u.order there = none → u.setParent there here = .ok v →
      Called history lockCount fuel there v

variable {history : History} {lockCount fuel here there : ℕ} {s t u : Search} {path : List ℕ}
  {cause : Cause} {report : List (ℕ × ℕ)}

theorem getElem?_of_read {α Node : Type} {v : List α} {i : ℕ} {a : α}
    (hread : (read v i : Except (Fault Node) α) = .ok a) : v[i]? = some a := by
  unfold read at hread
  split at hread
  case h_1 b hb =>
    cases hread
    exact hb
  case h_2 => cases hread

theorem order_of_read {i : ℕ} {order : Option ℕ}
    (hread : (read u.discoveredOrder i : Except (Fault ℕ) _) = .ok order) : u.order i = order := by
  rw [Search.order, getElem?_of_read hread]
  rfl

theorem read_ne_crash {α Node : Type} {v : List α} {i : ℕ} {cause : Cause}
    {report : List (Node × Node)} : read v i ≠ .error (.crash cause report) := by
  unfold read
  split <;> exact fun h => by cases h

/-- `discover`, `finish` and `setParent` do not crash. -/
theorem write_bind_ne_crash {α : Type} {v : List α} {i : ℕ} {a : α} {f : List α → Search} :
    (write v i a >>= fun v => return f v) ≠ .error (.crash cause report) := by
  unfold write
  split <;> exact fun h => by cases h

theorem walk_ne_crash {parent : List (Option ℕ)} {now : ℕ} :
    walk parent there fuel now ≠ .error (.crash cause report) := by
  intro h
  induction fuel generalizing now report with
  | zero => cases h
  | succ fuel ih =>
    obtain ⟨up, -, h⟩ := (bind_eq_error.mp h).resolve_left read_ne_crash
    cases up with
    | none => cases h
    | some up =>
      simp only at h
      split at h
      case isTrue => cases h
      case isFalse =>
        obtain ⟨_, -, h⟩ := (bind_eq_error.mp h).resolve_left ih
        cases h

/-- A round of the loop crashes in the recursive call, or in the branch of the report. -/
theorem visit_crash {descend : ℕ → Search → Except (Fault ℕ) Search}
    (h : visit descend here u there = .error (.crash cause report)) :
    (u.order there = none ∧ ∃ v, u.setParent there here = .ok v ∧
      descend there v = .error (.crash cause report)) ∨
    u.Reports here there ∧ cause = .deadlockDetected ∧ ∃ edges, report = (here, there) :: edges := by
  obtain ⟨order, hthere, h⟩ := (bind_eq_error.mp h).resolve_left read_ne_crash
  have horder : u.order there = order := order_of_read hthere
  cases order with
  | none =>
    refine .inl ⟨horder, ?_⟩
    exact (bind_eq_error.mp h).resolve_left write_bind_ne_crash
  | some order =>
    right
    obtain ⟨own, hhere, h⟩ := (bind_eq_error.mp h).resolve_left read_ne_crash
    split at h
    case isTrue => cases h
    case isFalse hlate =>
      obtain ⟨done, hdone, h⟩ := (bind_eq_error.mp h).resolve_left read_ne_crash
      cases done with
      | true => cases h
      | false =>
        obtain ⟨edges, -, h⟩ := (bind_eq_error.mp h).resolve_left walk_ne_crash
        cases h
        refine ⟨⟨order, horder, ?_, ?_⟩, rfl, edges, rfl⟩
        · rwa [order_of_read hhere]
        · intro hfinished
          rw [Finished, getElem?_of_read hdone] at hfinished
          cases hfinished

/-- A call of `Dfs` crashes in its loop. -/
theorem dfs_crash {s : Search} (h : dfs history (fuel + 1) here s = .error (.crash cause report)) :
    ∃ there u, Comes history fuel here s there u ∧
      visit (dfs history fuel) here u there = .error (.crash cause report) := by
  obtain ⟨order, hhere, h⟩ := (bind_eq_error.mp h).resolve_left read_ne_crash
  cases order with
  | some order => cases h
  | none =>
    obtain ⟨s₁, hdiscover, h⟩ := (bind_eq_error.mp h).resolve_left write_bind_ne_crash
    cases hnext : history.lookup here with
    | none =>
      rw [hnext] at h
      exact absurd h write_bind_ne_crash
    | some nextSet =>
      rw [hnext] at h
      rcases bind_eq_error.mp h with hloop | ⟨_, -, h⟩
      · obtain ⟨before, there, after, u, hlist, hbefore, hvisit⟩ := foldlM_eq_error.mp hloop
        exact ⟨there, u, ⟨s₁, nextSet, before, after, order_of_read hhere, hdiscover, hnext, hlist,
          hbefore⟩, hvisit⟩
      · exact absurd h write_bind_ne_crash

/-- A call of `Dfs` that crashes takes the branch of the report, or another call does so below
it. -/
theorem Called.exists_reports (hcalled : Called history lockCount fuel here s)
    (h : dfs history fuel here s = .error (.crash cause report)) :
    ∃ fuel here there t u, Called history lockCount (fuel + 1) here t ∧
      Comes history fuel here t there u ∧ u.Reports here there ∧
      (cause = .deadlockDetected ∧ ∃ edges, report = (here, there) :: edges) ∧
      visit (dfs history fuel) here u there = .error (.crash cause report) := by
  induction fuel generalizing here s with
  | zero => cases h
  | succ fuel ih =>
    obtain ⟨there, u, hcomes, hvisit⟩ := dfs_crash h
    rcases visit_crash hvisit with ⟨hnew, v, hparent, hdescend⟩ | ⟨hreports, hcrash⟩
    · exact ih (hcalled.child hcomes hnew hparent) hdescend
    · exact ⟨fuel, here, there, s, u, hcalled, hcomes, hreports, hcrash, hvisit⟩

theorem range_eq_append_cons {n i : ℕ} {before : List ℕ} :
    (∃ after, List.range n = before ++ i :: after) ↔ i < n ∧ before = List.range i := by
  simp only [List.range_eq_range', List.range'_eq_append_iff, Nat.zero_add, Nat.mul_one]
  constructor
  · rintro ⟨after, k, hk, rfl, hrest⟩
    obtain ⟨rfl, hlt, -⟩ := List.range'_eq_cons_iff.mp hrest.symm
    exact ⟨Nat.lt_of_sub_pos hlt, rfl⟩
  · rintro ⟨hlt, rfl⟩
    exact ⟨_, i, hlt.le, rfl, (List.range'_eq_cons_iff.mpr ⟨rfl, Nat.sub_pos_of_lt hlt, rfl⟩).symm⟩

/-- Every crash of the check comes from a call of `Dfs` that takes the branch of the report. -/
theorem exists_reports_of_checkCycle
    (h : checkCycle history lockCount = .error (.crash cause report)) :
    ∃ fuel here there t u, Called history lockCount (fuel + 1) here t ∧
      Comes history fuel here t there u ∧ u.Reports here there ∧
      (cause = .deadlockDetected ∧ ∃ edges, report = (here, there) :: edges) ∧
      visit (dfs history fuel) here u there = .error (.crash cause report) := by
  rcases bind_eq_error.mp h with hloop | ⟨_, -, h⟩
  · obtain ⟨before, lockId, after, s, hrange, hbefore, hdfs⟩ := foldlM_eq_error.mp hloop
    obtain ⟨hlt, rfl⟩ := range_eq_append_cons.mp ⟨after, hrange⟩
    exact (Called.root hlt hbefore).exists_reports hdfs
  · cases h

/-- What a call of `Dfs` finds: the path of the calls around it. -/
structure Below (history : History) (lockCount fuel here : ℕ) (s : Search) (path : List ℕ) : Prop where
  inv : Inv history lockCount s path
  lt : here < lockCount
  enough : lockCount < fuel + path.length
  entered : s.order here = none →
    ∀ up, path.head? = some up → s.parentOf here = some up ∧ Edge history up here

variable (hrange : ∀ a b, Edge history a b → b < lockCount) (hirrefl : ∀ a, ¬ Edge history a a)

include hrange hirrefl

/-- The loop keeps the invariant, with its node as the deepest of the path. -/
theorem Below.comes (hbelow : Below history lockCount (fuel + 1) here t path)
    (hcomes : Comes history fuel here t there u) :
    Inv history lockCount u (here :: path) ∧ Edge history here there := by
  obtain ⟨t', nextSet, before, after, hnew, hdiscover, hlookup, hlist, hloop⟩ := hcomes
  have hmem (a : ℕ) (ha : a ∈ before ++ there :: after) : Edge history here a := by
    rw [← hlist] at ha
    exact ⟨nextSet, hlookup, ha⟩
  refine ⟨?_, hmem there (by simp)⟩
  obtain ⟨t'', hdiscover', hinv, -⟩ := hbelow.inv.discover hbelow.lt hnew (hbelow.entered hnew)
  rw [hdiscover] at hdiscover'
  cases hdiscover'
  have hfuel : lockCount < fuel + (here :: path).length := by
    have hle := hbelow.enough
    simp only [List.length_cons]
    omega
  have hends := Ends.foldlM (I := fun t => Inv history lockCount t (here :: path))
    (D := fun b t => t.Finished b) (l := before) (fun a ha t hinv =>
      visit_ends hrange hirrefl (dfs_descends hrange hirrefl hfuel) hinv
        (hmem a (List.mem_append_left _ ha))) hinv
  rw [hloop] at hends
  exact hends.1

theorem Called.exists_path (hcalled : Called history lockCount fuel here s) :
    ∃ path, Below history lockCount fuel here s path := by
  induction hcalled with
  | @root lockId s hlt hloop =>
    have hfuel : lockCount < lockCount + 1 + ([] : List ℕ).length := Nat.lt_succ_self lockCount
    have hends := Ends.foldlM (I := fun t => Inv history lockCount t [])
      (D := fun b t => t.Finished b) (l := List.range lockId) (E := IsDeadlock history)
      (f := fun s lockId => dfs history (lockCount + 1) lockId s)
      (fun a ha t hinv => by
        have ha' : a < lockCount := (List.mem_range.mp ha).trans hlt
        apply (dfs_descends hrange hirrefl hfuel hinv ha' (fun _ up hup => by cases hup)).mono
        rintro t' ⟨hinv', hdone, hkeep⟩
        exact ⟨hinv', hdone List.not_mem_nil, hkeep⟩)
      (inv_fresh history lockCount)
    rw [hloop] at hends
    exact ⟨[], hends.1, hlt, hfuel, fun _ up hup => by cases hup⟩
  | @child fuel here there t u v _ hcomes hnew hparent ih =>
    obtain ⟨path, hbelow⟩ := ih
    obtain ⟨hinv, hedge⟩ := hbelow.comes hrange hirrefl hcomes
    have hthere := hrange _ _ hedge
    obtain ⟨v', hset, hinv', hentered, -⟩ := hinv.setParent hthere hnew here
    rw [hparent] at hset
    cases hset
    refine ⟨here :: path, hinv', hthere, ?_, fun _ up hup => ?_⟩
    · have hfuel := hbelow.enough
      simp only [List.length_cons]
      omega
    · cases hup
      exact ⟨hentered, hedge⟩

omit hrange hirrefl in
/-- An error in a round of the loop is the call's. -/
theorem Below.dfs_error {fault : Fault ℕ} (hbelow : Below history lockCount (fuel + 1) here t path)
    (hcomes : Comes history fuel here t there u)
    (hvisit : visit (dfs history fuel) here u there = .error fault) :
    dfs history (fuel + 1) here t = .error fault := by
  obtain ⟨t', nextSet, before, after, hnew, hdiscover, hnext, hlist, hbefore⟩ := hcomes
  have hloop : nextSet.toList.foldlM (visit (dfs history fuel) here) t' = .error fault :=
    foldlM_eq_error.mpr ⟨before, there, after, u, hlist, hbefore, hvisit⟩
  have hread := read_order (hbelow.inv.orders.symm ▸ hbelow.lt)
  rw [hnew] at hread
  simp only [dfs, hread, ok_bind, hdiscover, hnext]
  exact bind_eq_error.mpr (.inl hloop)

/-- An error of a call of `Dfs` is the check's. -/
theorem Called.checkCycle_error {fault : Fault ℕ} (hcalled : Called history lockCount fuel here s)
    (h : dfs history fuel here s = .error fault) : checkCycle history lockCount = .error fault := by
  induction hcalled with
  | @root lockId s hlt hloop =>
    obtain ⟨after, hlist⟩ := range_eq_append_cons.mpr ⟨hlt, rfl⟩
    exact bind_eq_error.mpr (.inl (foldlM_eq_error.mpr
      ⟨List.range lockId, lockId, after, s, hlist, hloop, h⟩))
  | @child fuel here there t u v hcalled hcomes hnew hparent ih =>
    obtain ⟨path, hbelow⟩ := hcalled.exists_path hrange hirrefl
    obtain ⟨hinv, hedge⟩ := hbelow.comes hrange hirrefl hcomes
    have hread := read_order (hinv.orders.symm ▸ hrange _ _ hedge)
    apply ih
    apply hbelow.dfs_error hcomes
    simp only [visit, hread, hnew, ok_bind, hparent, h]

/-- The check crashes exactly if a call of `Dfs` takes the branch of the report, and with that
call's report. -/
theorem checkCycle_crash_iff :
    checkCycle history lockCount = .error (.crash cause report) ↔
      ∃ fuel here there t u, Called history lockCount (fuel + 1) here t ∧
        Comes history fuel here t there u ∧ u.Reports here there ∧
        visit (dfs history fuel) here u there = .error (.crash cause report) := by
  constructor
  · intro h
    obtain ⟨fuel, here, there, t, u, hcalled, hcomes, hreports, -, hvisit⟩ :=
      exists_reports_of_checkCycle h
    exact ⟨fuel, here, there, t, u, hcalled, hcomes, hreports, hvisit⟩
  · rintro ⟨fuel, here, there, t, u, hcalled, hcomes, -, hvisit⟩
    obtain ⟨path, hbelow⟩ := hcalled.exists_path hrange hirrefl
    exact hcalled.checkCycle_error hrange hirrefl (hbelow.dfs_error hcomes hvisit)

omit hrange hirrefl in
/-- More rounds change nothing about a walk that has ended. -/
theorem walk_mono {parent : List (Option ℕ)} {now bound : ℕ} {edges : List (ℕ × ℕ)}
    (hwalk : walk parent there fuel now = .ok edges) (hle : fuel ≤ bound) :
    walk parent there bound now = .ok edges := by
  induction fuel generalizing now bound edges with
  | zero => cases hwalk
  | succ fuel ih =>
    obtain ⟨bound, rfl⟩ := Nat.exists_eq_succ_of_ne_zero (Nat.ne_zero_of_lt hle)
    simp only [walk, bind_eq_ok] at hwalk ⊢
    obtain ⟨up, hread, hwalk⟩ := hwalk
    refine ⟨up, hread, ?_⟩
    cases up with
    | none => cases hwalk
    | some up =>
      simp only at hwalk ⊢
      split at hwalk
      case isTrue hup =>
        rw [if_pos hup]
        exact hwalk
      case isFalse hup =>
        rw [if_neg hup]
        obtain ⟨rest, hrest, hcons⟩ := bind_eq_ok.mp hwalk
        exact bind_eq_ok.mpr ⟨rest, ih hrest (Nat.le_of_succ_le_succ hle), hcons⟩

end Search

/-- Whenever `Dfs` takes the branch of the report for an edge from `here` to `there`, the walk
along `_parent` ends, having read a parent of each node that it goes through. All ids that are
printed have names, and the printed pairs are the edges of a cycle through `here` and `there`
that visits no id twice. -/
theorem report_is_cycle {Name : Type} {s : Profiler Name}
    (hedges : ∀ a b, Edge s.lockHistory a b → a < s.lockCount ∧ b < s.lockCount ∧ a ≠ b)
    (hnamed : ∀ lockId < s.lockCount, ∃ name, s.idToName.lookup lockId = some name)
    {fuel here there : ℕ} {t u : Search}
    (hcalled : Search.Called s.lockHistory s.lockCount (fuel + 1) here t)
    (hcomes : Search.Comes s.lockHistory fuel here t there u) (hreports : u.Reports here there) :
    ∃ edges, (∃ steps, ∀ bound ≥ steps, Search.walk u.parent there bound here = .ok edges) ∧
      BackwardWalk (Edge s.lockHistory) there there ((here, there) :: edges) ∧
      (∀ e ∈ (here, there) :: edges, ∃ up now,
        s.idToName.lookup e.1 = some up ∧ s.idToName.lookup e.2 = some now) ∧
      Search.visit (Search.dfs s.lockHistory fuel) here u there =
        .error (.crash .deadlockDetected ((here, there) :: edges)) := by
  have hrange (a b : ℕ) (hedge : Edge s.lockHistory a b) := (hedges a b hedge).2.1
  have hirrefl (a : ℕ) (hedge : Edge s.lockHistory a a) : False := (hedges a a hedge).2.2 rfl
  obtain ⟨path, hbelow⟩ := hcalled.exists_path hrange hirrefl
  obtain ⟨hinv, hedge⟩ := hbelow.comes hrange hirrefl hcomes
  have hne : there ≠ here := by
    rintro rfl
    exact hirrefl there hedge
  obtain ⟨edges, hwalk, hcycle, hvisit⟩ :=
    hinv.reports hne hedge hreports (Search.dfs s.lockHistory fuel)
  refine ⟨edges, ⟨_, fun bound hle => Search.walk_mono hwalk hle⟩, hcycle, fun e he => ?_, hvisit⟩
  obtain ⟨hup, hnow, -⟩ := hedges e.1 e.2 (hcycle.steps e he)
  obtain ⟨up, hup⟩ := hnamed e.1 hup
  obtain ⟨now, hnow⟩ := hnamed e.2 hnow
  exact ⟨up, now, hup, hnow⟩

/-- The check of two locks that are each acquired below the other, when it has entered the second
from the first and comes back. -/
def reentered : Search := ⟨[some 0, some 1], 2, [false, false], [none, some 0]⟩

theorem report_is_cycle_opposed :
    ∃ edges, BackwardWalk (Edge Profiler.opposed.lockHistory) 0 0 ((1, 0) :: edges) ∧
      Search.visit (Search.dfs Profiler.opposed.lockHistory 1) 1 reentered 0 =
        .error (.crash .deadlockDetected ((1, 0) :: edges)) := by
  have hroot : Search.Called Profiler.opposed.lockHistory 2 3 0 (Search.fresh 2) :=
    .root (by decide) rfl
  have hfirst : Search.Comes Profiler.opposed.lockHistory 2 0 (Search.fresh 2) 1
      ⟨[some 0, none], 1, [false, false], [none, none]⟩ :=
    ⟨_, _, [], [], rfl, rfl, rfl, rfl, rfl⟩
  have hcalled : Search.Called Profiler.opposed.lockHistory 2 2 1
      ⟨[some 0, none], 1, [false, false], [none, some 0]⟩ := hroot.child hfirst rfl rfl
  have hcomes : Search.Comes Profiler.opposed.lockHistory 1 1
      ⟨[some 0, none], 1, [false, false], [none, some 0]⟩ 0 reentered :=
    ⟨_, _, [], [], rfl, rfl, rfl, rfl, rfl⟩
  have hnamed (lockId : ℕ) (hlt : lockId < Profiler.opposed.lockCount) :
      ∃ name, Profiler.opposed.idToName.lookup lockId = some name := by
    have hcount : Profiler.opposed.lockCount = 2 := rfl
    rw [hcount] at hlt
    interval_cases lockId
    · exact ⟨_, rfl⟩
    · exact ⟨_, rfl⟩
  have hreports : reentered.Reports 1 0 := ⟨0, rfl, by decide, by simp [Search.Finished, reentered]⟩
  obtain ⟨edges, -, hcycle, -, hvisit⟩ :=
    report_is_cycle Profiler.opposed_edges hnamed hcalled hcomes hreports
  exact ⟨edges, hcycle, hvisit⟩

end CppServer.DeadLockProfiler
