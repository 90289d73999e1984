import CppServer.Base.Graph
import CppServer.Base.Outcome
import CppServer.DeadLockProfiler.Profiler

namespace CppServer.DeadLockProfiler

open Base Base.Graph Relation

/-- An edge of the recorded history. -/
def Edge (history : History) (a b : ℕ) : Prop :=
  ∃ nextSet, history.lookup a = some nextSet ∧ b ∈ nextSet

/-- The crash of the check, with a report that is a cycle of the history. -/
def IsDeadlock (history : History) (fault : Fault ℕ) : Prop :=
  ∃ a report, fault = .crash .deadlockDetected report ∧ BackwardWalk (Edge history) a a report

theorem IsDeadlock.not_acyclic {history : History} {fault : Fault ℕ}
    (hdeadlock : IsDeadlock history fault) : ¬ Acyclic (Edge history) := by
  obtain ⟨a, _, _, hwalk⟩ := hdeadlock
  exact fun hacyclic => hacyclic a hwalk.transGen

namespace Search

/-- The order of a discovered node. -/
def order (s : Search) (i : ℕ) : Option ℕ := s.discoveredOrder[i]?.join

def Finished (s : Search) (i : ℕ) : Prop := s.finished[i]? = some true

def parentOf (s : Search) (i : ℕ) : Option ℕ := s.parent[i]?.join

theorem join_getElem?_set {α : Type} {v : List (Option α)} {i : ℕ} (hi : i < v.length)
    (a : Option α) (j : ℕ) : (v.set i a)[j]?.join = if i = j then a else v[j]?.join := by
  rw [List.getElem?_set]
  split
  case isTrue hij =>
    subst hij
    rfl
  case isFalse => rfl

theorem lt_of_order {s : Search} {i : ℕ} (horder : s.order i ≠ none) :
    i < s.discoveredOrder.length := by
  by_contra hge
  apply horder
  rw [order, List.getElem?_eq_none (Nat.le_of_not_lt hge)]
  rfl

theorem read_order {s : Search} {i : ℕ} (hi : i < s.discoveredOrder.length) :
    (read s.discoveredOrder i : Except (Fault ℕ) _) = .ok (s.order i) := by
  simp [read, order, List.getElem?_eq_getElem hi]

theorem read_finished {s : Search} {i : ℕ} (hi : i < s.finished.length) :
    ∃ b, (read s.finished i : Except (Fault ℕ) _) = .ok b ∧ (b = true ↔ s.Finished i) :=
  ⟨s.finished[i], by simp [read, List.getElem?_eq_getElem hi],
    by simp [Finished, List.getElem?_eq_getElem hi]⟩

/-- The invariant of the search while it is below the nodes of `path`, the
deepest first. The path's nodes are those that are discovered and not finished,
each entered from the next; what is finished is closed under edges and has no
cycle. -/
structure Inv (history : History) (lockCount : ℕ) (s : Search) (path : List ℕ) : Prop where
  orders : s.discoveredOrder.length = lockCount
  finisheds : s.finished.length = lockCount
  parents : s.parent.length = lockCount
  counted : ∀ i k, s.order i = some k → k < s.discoveredCount
  discovered : ∀ i, s.Finished i → s.order i ≠ none
  open_iff : ∀ i, i ∈ path ↔ s.order i ≠ none ∧ ¬ s.Finished i
  descending : path.Pairwise fun a b => ∃ k l, s.order a = some k ∧ s.order b = some l ∧ l < k
  chain : path.IsChain fun child up => s.parentOf child = some up ∧ Edge history up child
  closed : ∀ a b, s.Finished a → Edge history a b → s.Finished b
  acyclic : ∀ a, s.Finished a → ¬ TransGen (Edge history) a a

variable {history : History} {lockCount : ℕ} {s : Search} {path : List ℕ}

theorem Inv.nodup (hinv : Inv history lockCount s path) : path.Nodup := by
  apply hinv.descending.imp
  rintro a b ⟨k, l, hk, hl, hlt⟩ rfl
  rw [hk] at hl
  cases hl
  exact lt_irrefl _ hlt

theorem Inv.lt (hinv : Inv history lockCount s path) {i : ℕ} (hi : i ∈ path) : i < lockCount := by
  rw [← hinv.orders]
  exact lt_of_order ((hinv.open_iff i).mp hi).1

theorem Inv.length_le (hinv : Inv history lockCount s path) : path.length ≤ lockCount := by
  have hsub : path ⊆ List.range lockCount := fun i hi => List.mem_range.mpr (hinv.lt hi)
  simpa using (List.subperm_of_subset hinv.nodup hsub).length_le

theorem inv_fresh (history : History) (lockCount : ℕ) :
    Inv history lockCount (fresh lockCount) [] := by
  have horder (i : ℕ) : (fresh lockCount).order i = none := by
    simp only [order, fresh, List.getElem?_replicate]
    split <;> rfl
  have hfinished (i : ℕ) : ¬ (fresh lockCount).Finished i := by
    simp only [Finished, fresh, List.getElem?_replicate]
    split <;> simp
  refine ⟨List.length_replicate, List.length_replicate, List.length_replicate, ?_, ?_, ?_, .nil,
    .nil, ?_, ?_⟩
  · intro i k h
    rw [horder] at h
    cases h
  · exact fun i h => absurd h (hfinished i)
  · intro i
    simp [horder]
  · exact fun a b h => absurd h (hfinished a)
  · exact fun a h => absurd h (hfinished a)

/-- Discovering a node puts it on the path. -/
theorem Inv.discover (hinv : Inv history lockCount s path) {here : ℕ} (hhere : here < lockCount)
    (hnew : s.order here = none)
    (hentered : ∀ up, path.head? = some up → s.parentOf here = some up ∧ Edge history up here) :
    ∃ s', s.discover here = .ok s' ∧ Inv history lockCount s' (here :: path) ∧
      s'.finished = s.finished := by
  have hlength : here < s.discoveredOrder.length := hinv.orders.symm ▸ hhere
  let s' : Search :=
    { s with
      discoveredOrder := s.discoveredOrder.set here (some s.discoveredCount)
      discoveredCount := s.discoveredCount + 1 }
  have horder (i : ℕ) : s'.order i = if here = i then some s.discoveredCount else s.order i :=
    join_getElem?_set hlength _ i
  have hfresh : here ∉ path := fun h => ((hinv.open_iff here).mp h).1 hnew
  have hkeep {i : ℕ} (hi : i ∈ path) : s'.order i = s.order i := by
    rw [horder, if_neg]
    rintro rfl
    exact hfresh hi
  have hunfinished : ¬ s.Finished here := fun h => hinv.discovered here h hnew
  refine ⟨s', ?_, ⟨?_, hinv.finisheds, hinv.parents, ?_, ?_, ?_, ?_, ?_, hinv.closed,
    hinv.acyclic⟩, rfl⟩
  · simp [Search.discover, write, hlength, s']
  · simpa [s'] using hinv.orders
  · intro i k hk
    rw [horder] at hk
    split at hk
    case isTrue =>
      cases hk
      exact Nat.lt_succ_self _
    case isFalse => exact Nat.lt_succ_of_lt (hinv.counted i k hk)
  · intro i hi
    rw [horder]
    split
    case isTrue => exact Option.some_ne_none _
    case isFalse => exact hinv.discovered i hi
  · intro i
    rw [List.mem_cons, hinv.open_iff, horder]
    by_cases hi : here = i
    · subst hi
      rw [if_pos rfl]
      exact ⟨fun _ => ⟨Option.some_ne_none _, hunfinished⟩, fun _ => .inl rfl⟩
    · rw [if_neg hi]
      exact ⟨fun h => h.resolve_left (Ne.symm hi), .inr⟩
  · refine List.pairwise_cons.mpr ⟨fun b hb => ?_, ?_⟩
    · obtain ⟨l, hl⟩ := Option.ne_none_iff_exists'.mp ((hinv.open_iff b).mp hb).1
      exact ⟨_, l, by rw [horder, if_pos rfl], by rw [hkeep hb, hl], hinv.counted b l hl⟩
    · apply hinv.descending.imp_of_mem
      rintro a b ha hb ⟨k, l, hk, hl, hlt⟩
      exact ⟨k, l, by rw [hkeep ha, hk], by rw [hkeep hb, hl], hlt⟩
  · cases path with
    | nil => exact List.isChain_singleton _
    | cons up path => exact List.isChain_cons_cons.mpr ⟨hentered up rfl, hinv.chain⟩

/-- Noting where an undiscovered node is entered from. -/
theorem Inv.setParent (hinv : Inv history lockCount s path) {there : ℕ} (hthere : there < lockCount)
    (hnew : s.order there = none) (here : ℕ) :
    ∃ s', s.setParent there here = .ok s' ∧ Inv history lockCount s' path ∧
      s'.parentOf there = some here ∧ s'.discoveredOrder = s.discoveredOrder ∧
      s'.finished = s.finished := by
  have hlength : there < s.parent.length := hinv.parents.symm ▸ hthere
  let s' : Search := { s with parent := s.parent.set there (some here) }
  have hparent (i : ℕ) : s'.parentOf i = if there = i then some here else s.parentOf i :=
    join_getElem?_set hlength _ i
  have hfresh : there ∉ path := fun h => ((hinv.open_iff there).mp h).1 hnew
  refine ⟨s', ?_, ⟨hinv.orders, hinv.finisheds, ?_, hinv.counted, hinv.discovered, hinv.open_iff,
    hinv.descending, ?_, hinv.closed, hinv.acyclic⟩, ?_, rfl, rfl⟩
  · simp [Search.setParent, write, hlength, s']
  · simpa [s'] using hinv.parents
  · apply hinv.chain.imp_of_mem_imp
    rintro child up hchild _ ⟨hup, hedge⟩
    refine ⟨?_, hedge⟩
    rw [hparent, if_neg, hup]
    rintro rfl
    exact hfresh hchild
  · rw [hparent, if_pos rfl]

/-- A node all of whose successors are finished may be finished itself: it is
on no cycle. -/
theorem Inv.finish {here : ℕ} (hinv : Inv history lockCount s (here :: path))
    (hdone : ∀ b, Edge history here b → s.Finished b) :
    ∃ s', s.finish here = .ok s' ∧ Inv history lockCount s' path ∧ s'.Finished here ∧
      ∀ b, s.Finished b → s'.Finished b := by
  have hhere := (hinv.open_iff here).mp List.mem_cons_self
  have hlength : here < s.finished.length := by
    rw [hinv.finisheds]
    exact hinv.lt List.mem_cons_self
  let s' : Search := { s with finished := s.finished.set here true }
  have hfinished (i : ℕ) : s'.Finished i ↔ i = here ∨ s.Finished i := by
    simp only [Finished, s', List.getElem?_set]
    by_cases hi : here = i
    · subst hi
      simp [hlength]
    · simp [hi, Ne.symm hi]
  have hfresh : here ∉ path := (List.nodup_cons.mp hinv.nodup).1
  refine ⟨s', ?_, ⟨hinv.orders, ?_, hinv.parents, hinv.counted, ?_, ?_,
    (List.pairwise_cons.mp hinv.descending).2, hinv.chain.tail, ?_, ?_⟩, ?_, ?_⟩
  · simp [Search.finish, write, hlength, s']
  · simpa [s'] using hinv.finisheds
  · intro i hi
    rcases (hfinished i).mp hi with rfl | hi
    · exact hhere.1
    · exact hinv.discovered i hi
  · intro i
    have hopen := hinv.open_iff i
    rw [List.mem_cons] at hopen
    rw [hfinished, not_or]
    constructor
    · intro hi
      obtain ⟨horder, hunfinished⟩ := hopen.mp (.inr hi)
      exact ⟨horder, fun h => hfresh (h ▸ hi), hunfinished⟩
    · rintro ⟨horder, hne, hunfinished⟩
      exact (hopen.mpr ⟨horder, hunfinished⟩).resolve_left hne
  · intro a b ha hedge
    rw [hfinished]
    rcases (hfinished a).mp ha with rfl | ha
    · exact .inr (hdone b hedge)
    · exact .inr (hinv.closed a b ha hedge)
  · intro a ha
    rcases (hfinished a).mp ha with rfl | ha
    · exact not_cycle_of_enters hinv.closed hhere.2 hdone
    · exact hinv.acyclic a ha
  · exact (hfinished here).mpr (.inl rfl)
  · exact fun b hb => (hfinished b).mpr (.inr hb)

/-- The report's walk from the deepest node reaches every node of the path, over
edges whose sources are different nodes of the path. -/
theorem walk_ends {parent : List (Option ℕ)} {there here fuel : ℕ} {path : List ℕ}
    (hchain : (here :: path).IsChain fun child up =>
      parent[child]?.join = some up ∧ Edge history up child)
    (hnodup : path.Nodup) (hthere : there ∈ path) (hfuel : path.length ≤ fuel) :
    ∃ edges, walk parent there fuel here = .ok edges ∧
      BackwardWalk (Edge history) here there edges ∧ ∀ e ∈ edges, e.1 ∈ path := by
  induction path generalizing here fuel with
  | nil => exact absurd hthere List.not_mem_nil
  | cons up path ih =>
    obtain ⟨⟨hparent, hedge⟩, hchain⟩ := List.isChain_cons_cons.mp hchain
    obtain ⟨hfresh, hnodup⟩ := List.nodup_cons.mp hnodup
    obtain ⟨fuel, rfl⟩ := Nat.exists_eq_succ_of_ne_zero
      (Nat.ne_of_gt (Nat.lt_of_lt_of_le (Nat.succ_pos path.length) hfuel))
    have hread : (read parent here : Except (Fault ℕ) _) = .ok (some up) := by
      rw [read, Option.join_eq_some_iff.mp hparent]
    by_cases hup : up = there
    · subst hup
      refine ⟨[(up, here)], ?_, .single hedge, ?_⟩
      · simp only [walk, hread, ok_bind, if_true]
        rfl
      · intro e he
        cases List.mem_singleton.mp he
        exact List.mem_cons_self
    · have hthere := (List.mem_cons.mp hthere).resolve_left (Ne.symm hup)
      obtain ⟨edges, hwalk, hback, hsources⟩ :=
        ih hchain hnodup hthere (Nat.le_of_succ_le_succ hfuel)
      refine ⟨(up, here) :: edges, ?_, hback.cons hedge ?_, ?_⟩
      · simp [walk, hread, hup, hwalk]
      · intro hmem
        obtain ⟨e, he, rfl⟩ := List.mem_map.mp hmem
        exact hfresh (hsources e he)
      · intro e he
        rcases List.mem_cons.mp he with rfl | he
        · exact List.mem_cons_self
        · exact List.mem_cons_of_mem _ (hsources e he)

/-- The report on an edge from the deepest node of the path to a node above it. -/
theorem Inv.report {here there fuel : ℕ} (hinv : Inv history lockCount s (here :: path))
    (hedge : Edge history here there) (hthere : there ∈ path) (hfuel : path.length ≤ fuel) :
    ∃ edges, walk s.parent there fuel here = .ok edges ∧
      BackwardWalk (Edge history) there there ((here, there) :: edges) := by
  obtain ⟨hfresh, hnodup⟩ := List.nodup_cons.mp hinv.nodup
  obtain ⟨edges, hwalk, hback, hsources⟩ := walk_ends hinv.chain hnodup hthere hfuel
  refine ⟨edges, hwalk, hback.cons hedge fun hmem => ?_⟩
  obtain ⟨e, he, rfl⟩ := List.mem_map.mp hmem
  exact hfresh (hsources e he)

/-- The loop of `Dfs(here)` takes the branch of the report: `there` is discovered, not after
`here`, and not finished. -/
def Reports (s : Search) (here there : ℕ) : Prop :=
  ∃ order, s.order there = some order ∧ ¬ ((s.order here).all (· < order) = true) ∧ ¬ s.Finished there

/-- The branch of the report is taken for a node above `here` on the path, and ends in the
crash. -/
theorem Inv.reports {here there : ℕ} (hinv : Inv history lockCount s (here :: path))
    (hne : there ≠ here) (hedge : Edge history here there) (hreports : s.Reports here there)
    (descend : ℕ → Search → Except (Fault ℕ) Search) :
    ∃ edges, walk s.parent there s.parent.length here = .ok edges ∧
      BackwardWalk (Edge history) there there ((here, there) :: edges) ∧
      visit descend here s there = .error (.crash .deadlockDetected ((here, there) :: edges)) := by
  obtain ⟨order, horder, hlate, hunfinished⟩ := hreports
  have hknown : s.order there ≠ none := by
    rw [horder]
    exact Option.some_ne_none order
  have hpath : there ∈ path :=
    (List.mem_cons.mp ((hinv.open_iff there).mpr ⟨hknown, hunfinished⟩)).resolve_left hne
  have hlength : path.length ≤ s.parent.length := by
    rw [hinv.parents]
    exact Nat.le_of_succ_le hinv.length_le
  obtain ⟨edges, hwalk, hcycle⟩ := hinv.report hedge hpath hlength
  refine ⟨edges, hwalk, hcycle, ?_⟩
  have hreadThere := read_order (lt_of_order hknown)
  have hreadHere := read_order (lt_of_order ((hinv.open_iff here).mp List.mem_cons_self).1)
  have hfinishedLength : there < s.finished.length := by
    rw [hinv.finisheds, ← hinv.orders]
    exact lt_of_order hknown
  obtain ⟨done, hreadDone, hdone⟩ := read_finished hfinishedLength
  have hdone : done = false := by simpa [hunfinished] using hdone
  rw [horder] at hreadThere
  simp [visit, hreadThere, hreadHere, hreadDone, hdone, hlate, hwalk]

/-- An undiscovered successor is entered by the recursive call. -/
theorem visit_new (descend : ℕ → Search → Except (Fault ℕ) Search) (here : ℕ) {there : ℕ}
    (hinv : Inv history lockCount s path) (hthere : there < lockCount)
    (hnew : s.order there = none) :
    ∃ s', Inv history lockCount s' path ∧ s'.parentOf there = some here ∧
      s'.discoveredOrder = s.discoveredOrder ∧ s'.finished = s.finished ∧
      visit descend here s there = descend there s' := by
  obtain ⟨s', hset, hinv', hparent, horder, hfinished⟩ := hinv.setParent hthere hnew here
  refine ⟨s', hinv', hparent, horder, hfinished, ?_⟩
  simp [visit, read_order (hinv.orders.symm ▸ hthere), hnew, hset]

/-- A discovered successor is finished, or the check ends in a crash with a
cycle through it. -/
theorem visit_known (descend : ℕ → Search → Except (Fault ℕ) Search) {here there : ℕ}
    (hinv : Inv history lockCount s (here :: path)) (hedge : Edge history here there)
    (hne : there ≠ here) (hknown : s.order there ≠ none) :
    (s.Finished there ∧ visit descend here s there = .ok s) ∨
      ∃ fault, IsDeadlock history fault ∧ visit descend here s there = .error fault := by
  by_cases hthere : s.Finished there
  · refine .inl ⟨hthere, ?_⟩
    obtain ⟨k, hk⟩ := Option.ne_none_iff_exists'.mp hknown
    have hreadThere := read_order (lt_of_order hknown)
    have hreadHere := read_order (lt_of_order ((hinv.open_iff here).mp List.mem_cons_self).1)
    have hfinishedLength : there < s.finished.length := by
      rw [hinv.finisheds, ← hinv.orders]
      exact lt_of_order hknown
    obtain ⟨done, hreadDone, hdone⟩ := read_finished hfinishedLength
    rw [hk] at hreadThere
    simp only [visit, hreadThere, hreadHere, hreadDone, hdone.mpr hthere, ok_bind, if_true]
    split <;> rfl
  · -- an open node other than `here` is above it on the path, and older
    have hpath : there ∈ path :=
      (List.mem_cons.mp ((hinv.open_iff there).mpr ⟨hknown, hthere⟩)).resolve_left hne
    obtain ⟨h, k, hh, hk, hlt⟩ := (List.pairwise_cons.mp hinv.descending).1 there hpath
    have hlate : ¬ ((s.order here).all (· < k) = true) := by
      rw [hh]
      simpa using Nat.le_of_lt hlt
    obtain ⟨edges, -, hcycle, hvisit⟩ := hinv.reports hne hedge ⟨k, hk, hlate, hthere⟩ descend
    exact .inr ⟨_, ⟨there, _, rfl, hcycle⟩, hvisit⟩

/-- What a call of `Dfs` below `path` does: it returns with the path as it was
and its node finished, or it ends in a crash with a cycle. -/
def Descends (history : History) (lockCount : ℕ) (path : List ℕ)
    (descend : ℕ → Search → Except (Fault ℕ) Search) : Prop :=
  ∀ {s here}, Inv history lockCount s path → here < lockCount →
    (s.order here = none →
      ∀ up, path.head? = some up → s.parentOf here = some up ∧ Edge history up here) →
    Ends (fun s' => Inv history lockCount s' path ∧ (here ∉ path → s'.Finished here) ∧
      ∀ b, s.Finished b → s'.Finished b) (IsDeadlock history) (descend here s)

variable {descend : ℕ → Search → Except (Fault ℕ) Search} {here : ℕ}

theorem visit_ends (hrange : ∀ a b, Edge history a b → b < lockCount)
    (hirrefl : ∀ a, ¬ Edge history a a) (hdescend : Descends history lockCount (here :: path) descend)
    (hinv : Inv history lockCount s (here :: path)) {there : ℕ} (hedge : Edge history here there) :
    Ends (fun s' => Inv history lockCount s' (here :: path) ∧ s'.Finished there ∧
      ∀ b, s.Finished b → s'.Finished b) (IsDeadlock history) (visit descend here s there) := by
  have hne : there ≠ here := fun h => hirrefl here (h ▸ hedge)
  by_cases hnew : s.order there = none
  · obtain ⟨s', hinv', hparent, horder, hfinished, hvisit⟩ :=
      visit_new descend here hinv (hrange _ _ hedge) hnew
    rw [hvisit]
    apply (hdescend hinv' (hrange _ _ hedge) fun _ up hup => by cases hup; exact ⟨hparent, hedge⟩).mono
    rintro s'' ⟨hinv'', hdone, hkeep⟩
    refine ⟨hinv'', hdone fun hmem => ?_, fun b hb => hkeep b ?_⟩
    · apply ((hinv'.open_iff there).mp hmem).1
      rw [order, horder]
      exact hnew
    · rw [Finished, hfinished]
      exact hb
  · rcases visit_known descend hinv hedge hne hnew with
      ⟨hdone, hvisit⟩ | ⟨fault, hfault, hvisit⟩
    · rw [hvisit]
      exact ⟨hinv, hdone, fun _ h => h⟩
    · rw [hvisit]
      exact hfault

/-- The recursion is as deep as the path is long, so it never uses up more fuel
than there are locks. -/
theorem dfs_descends (hrange : ∀ a b, Edge history a b → b < lockCount)
    (hirrefl : ∀ a, ¬ Edge history a a) {fuel : ℕ} (hfuel : lockCount < fuel + path.length) :
    Descends history lockCount path (dfs history fuel) := by
  induction fuel generalizing path with
  | zero =>
    intro s here hinv
    have hle := hinv.length_le
    omega
  | succ fuel ih =>
    intro s here hinv hhere hentered
    have hread := read_order (hinv.orders.symm ▸ hhere)
    cases hnew : s.order here with
    | some k =>
      simp only [dfs, hread, hnew, ok_bind]
      refine ⟨hinv, fun hclosed => ?_, fun _ h => h⟩
      by_contra hopen
      exact hclosed ((hinv.open_iff here).mpr ⟨by rw [hnew]; exact Option.some_ne_none k, hopen⟩)
    | none =>
      obtain ⟨s₁, hdiscover, hinv₁, hfinished₁⟩ := hinv.discover hhere hnew (hentered hnew)
      have hkeep₁ (b : ℕ) : s.Finished b → s₁.Finished b := by
        rw [Finished, Finished, hfinished₁]
        exact id
      simp only [dfs, hread, hnew, ok_bind, hdiscover]
      cases hnext : history.lookup here with
      | none =>
        have hnone (b : ℕ) (hedge : Edge history here b) : s₁.Finished b := by
          obtain ⟨nextSet, hlookup, _⟩ := hedge
          rw [hnext] at hlookup
          cases hlookup
        obtain ⟨s₂, hfinish, hinv₂, hdone, hkeep₂⟩ := hinv₁.finish hnone
        rw [hfinish]
        exact ⟨hinv₂, fun _ => hdone, fun b hb => hkeep₂ b (hkeep₁ b hb)⟩
      | some nextSet =>
        have hdescend : Descends history lockCount (here :: path) (dfs history fuel) :=
          ih (by simp only [List.length_cons]; omega)
        have hloop := Ends.foldlM (I := fun t => Inv history lockCount t (here :: path))
          (D := fun b t => t.Finished b) (fun there hthere t hinv =>
            visit_ends hrange hirrefl hdescend hinv ⟨nextSet, hnext, hthere⟩) hinv₁
        apply hloop.bind
        rintro s₂ ⟨hinv₂, hall, hkeep₂⟩
        have hdone (b : ℕ) (hedge : Edge history here b) : s₂.Finished b := by
          obtain ⟨_, hlookup, hmem⟩ := hedge
          rw [hnext] at hlookup
          cases hlookup
          exact hall b hmem
        obtain ⟨s₃, hfinish, hinv₃, hfinished₃, hkeep₃⟩ := hinv₂.finish hdone
        rw [hfinish]
        exact ⟨hinv₃, fun _ => hfinished₃, fun b hb => hkeep₃ b (hkeep₂ b (hkeep₁ b hb))⟩

end Search

/-- The check returns on a history without a cycle and otherwise crashes with a
cycle for its report. It ends in no other way. -/
theorem checkCycle_ends {history : History} {lockCount : ℕ}
    (hrange : ∀ a b, Edge history a b → b < lockCount) (hirrefl : ∀ a, ¬ Edge history a a) :
    Ends (fun _ => Acyclic (Edge history)) (IsDeadlock history) (checkCycle history lockCount) := by
  have hfuel : lockCount < lockCount + 1 + ([] : List ℕ).length := Nat.lt_succ_self lockCount
  have hloop := Ends.foldlM (I := fun t => Search.Inv history lockCount t [])
    (D := fun b t => t.Finished b) (l := List.range lockCount) (E := IsDeadlock history)
    (f := fun s lockId => Search.dfs history (lockCount + 1) lockId s)
    (fun here hhere t hinv => by
      apply (Search.dfs_descends hrange hirrefl hfuel hinv (List.mem_range.mp hhere)
        (fun _ up hup => by cases hup)).mono
      rintro t' ⟨hinv', hdone, hkeep⟩
      exact ⟨hinv', hdone List.not_mem_nil, hkeep⟩)
    (Search.inv_fresh history lockCount)
  apply hloop.bind
  rintro s ⟨hinv, hall, _⟩ a hcycle
  obtain ⟨b, _, hedge⟩ := TransGen.tail'_iff.mp hcycle
  exact hinv.acyclic a (hall a (List.mem_range.mpr (hrange b a hedge))) hcycle

end CppServer.DeadLockProfiler
