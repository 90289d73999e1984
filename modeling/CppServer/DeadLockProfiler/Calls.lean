import CppServer.DeadLockProfiler.Search

namespace CppServer.DeadLockProfiler

open Base Base.Graph Relation

namespace Profiler

variable {Name : Type}

/-- The history after the edge to `lockId` from the top of the stack has been
noted. -/
def noted (s : Profiler Name) (lockId : ℕ) : Profiler Name :=
  match s.lockStack with
  | [] => s
  | prevId :: _ =>
    if lockId ≠ prevId ∧ lockId ∉ s.history prevId then s.record prevId lockId else s

/-- A push that returns. -/
def pushed (s : Profiler Name) (lockId : ℕ) : Profiler Name :=
  { s.noted lockId with lockStack := lockId :: s.lockStack }

theorem mem_history {s : Profiler Name} {a b : ℕ} : b ∈ s.history a ↔ Edge s.lockHistory a b := by
  rw [history, Edge]
  cases s.lockHistory.lookup a with
  | none => simp
  | some nextSet => simp

theorem edge_record (s : Profiler Name) (prevId lockId a b : ℕ) :
    Edge (s.record prevId lockId).lockHistory a b ↔
      Edge s.lockHistory a b ∨ (a = prevId ∧ b = lockId) := by
  rw [← mem_history, ← mem_history]
  by_cases ha : a = prevId
  · subst ha
    simp [history, record, AList.lookup_insert, or_comm]
  · simp [history, record, AList.lookup_insert_ne ha, ha]

theorem noted_fields (s : Profiler Name) (lockId : ℕ) :
    (s.noted lockId).nameToId = s.nameToId ∧ (s.noted lockId).idToName = s.idToName ∧
      (s.noted lockId).lockStack = s.lockStack := by
  unfold noted
  split
  · exact ⟨rfl, rfl, rfl⟩
  · split <;> exact ⟨rfl, rfl, rfl⟩

/-- Whatever branch is taken, the history then has its old edges and the edge
from the top of the stack, unless the new lock is the top. -/
theorem edge_noted (s : Profiler Name) (lockId a b : ℕ) :
    Edge (s.noted lockId).lockHistory a b ↔
      Edge s.lockHistory a b ∨ (s.lockStack.head? = some a ∧ b = lockId ∧ a ≠ lockId) := by
  unfold noted
  split
  case h_1 hstack => simp [hstack]
  case h_2 prevId _ hstack =>
    rw [hstack, List.head?_cons]
    split
    case isTrue hnew =>
      rw [edge_record]
      apply or_congr_right
      constructor
      · rintro ⟨rfl, rfl⟩
        exact ⟨rfl, rfl, Ne.symm hnew.1⟩
      · rintro ⟨heq, rfl, _⟩
        exact ⟨(Option.some.inj heq).symm, rfl⟩
    case isFalse hold =>
      refine ⟨.inl, ?_⟩
      rintro (h | ⟨heq, rfl, hne⟩)
      · exact h
      · cases heq
        by_contra hedge
        exact hold ⟨Ne.symm hne, fun hmem => hedge (mem_history.mp hmem)⟩

variable [DecidableEq Name]

/-- The two tables are inverse to each other and give the names the ids below
their number. -/
structure Tables (s : Profiler Name) : Prop where
  inverse : ∀ name lockId, s.nameToId.lookup name = some lockId ↔ s.idToName.lookup lockId = some name
  named : ∀ lockId, (∃ name, s.idToName.lookup lockId = some name) ↔ lockId < s.lockCount

/-- What the profiler's calls keep: besides the tables, that ids are issued,
that the history has no edge from an id to itself and no cycle, and that
neighbours on the stack are equal or an edge. -/
structure Inv (s : Profiler Name) : Prop extends Tables s where
  edges : ∀ a b, Edge s.lockHistory a b → a < s.lockCount ∧ b < s.lockCount ∧ a ≠ b
  stack : ∀ a ∈ s.lockStack, a < s.lockCount
  adjacent : s.lockStack.IsChain fun upper lower => upper = lower ∨ Edge s.lockHistory lower upper
  acyclic : Acyclic (Edge s.lockHistory)

theorem inv_fresh : Inv ({} : Profiler Name) := by
  have hnone (a b : ℕ) : ¬ Edge (∅ : History) a b := by
    rintro ⟨_, hlookup, _⟩
    simp at hlookup
  refine ⟨⟨fun name lockId => by simp, fun lockId => by simp [lockCount]⟩,
    fun a b h => absurd h (hnone a b), by simp, .nil, fun a hcycle => ?_⟩
  obtain ⟨b, hedge, _⟩ := TransGen.head'_iff.mp hcycle
  exact hnone a b hedge

theorem lockCount_insert {s : Profiler Name} {name : Name} (hnew : s.nameToId.lookup name = none)
    (lockId : ℕ) (idToName : AList fun _ : ℕ => Name) :
    ({ s with nameToId := s.nameToId.insert name lockId, idToName } : Profiler Name).lockCount =
      s.lockCount + 1 := by
  have hfresh : name ∉ s.nameToId.keys := by
    rw [← AList.mem_keys, ← AList.lookup_eq_none]
    exact hnew
  simp [lockCount, AList.keys_insert, List.erase_of_not_mem hfresh]

/-- Finding or issuing an id only extends the tables. -/
structure Registers (s : Profiler Name) (name : Name) (lockId : ℕ) (s' : Profiler Name) : Prop where
  eq : s.register name = (lockId, s')
  tables : Tables s'
  stack : s'.lockStack = s.lockStack
  history : s'.lockHistory = s.lockHistory
  count : s.lockCount ≤ s'.lockCount
  named : s'.idToName.lookup lockId = some name
  keep : ∀ a < s.lockCount, s'.idToName.lookup a = s.idToName.lookup a
  known : ∀ x, x ∈ s'.nameToId ↔ x = name ∨ x ∈ s.nameToId

theorem registers {s : Profiler Name} (htables : Tables s) (name : Name) :
    ∃ lockId s', Registers s name lockId s' := by
  cases hname : s.nameToId.lookup name with
  | some lockId =>
    have hmem : name ∈ s.nameToId := by
      rw [← AList.lookup_isSome, hname]
      rfl
    refine ⟨lockId, s, by simp [register, hname], htables, rfl, rfl, le_refl _,
      (htables.inverse name lockId).mp hname, fun _ _ => rfl, fun x => ⟨.inr, ?_⟩⟩
    rintro (rfl | hx)
    · exact hmem
    · exact hx
  | none =>
    let s' : Profiler Name := { s with
      nameToId := s.nameToId.insert name s.lockCount
      idToName := s.idToName.insert s.lockCount name }
    have hcount : s'.lockCount = s.lockCount + 1 := lockCount_insert hname _ _
    have hlookup (a : ℕ) : s'.idToName.lookup a =
        if a = s.lockCount then some name else s.idToName.lookup a := by
      split
      case isTrue h =>
        subst h
        exact AList.lookup_insert _
      case isFalse h => exact AList.lookup_insert_ne h
    refine ⟨s.lockCount, s', by simp [register, hname, s'], ⟨?_, ?_⟩, rfl, rfl, by omega,
      by rw [hlookup, if_pos rfl], fun a ha => by rw [hlookup, if_neg (Nat.ne_of_lt ha)],
      fun x => AList.mem_insert _⟩
    · intro x a
      rw [hlookup]
      by_cases hx : x = name
      · subst hx
        rw [show s'.nameToId.lookup x = some s.lockCount from AList.lookup_insert _]
        by_cases ha : a = s.lockCount
        · simp [ha]
        · rw [if_neg ha]
          refine ⟨fun h => absurd (Option.some.inj h).symm ha, fun h => ?_⟩
          rw [(htables.inverse x a).mpr h] at hname
          cases hname
      · rw [show s'.nameToId.lookup x = s.nameToId.lookup x from AList.lookup_insert_ne hx,
          htables.inverse]
        by_cases ha : a = s.lockCount
        · subst ha
          rw [if_pos rfl]
          refine ⟨fun h => absurd ((htables.named _).mp ⟨x, h⟩) (lt_irrefl _), fun h => ?_⟩
          exact absurd (Option.some.inj h).symm hx
        · rw [if_neg ha]
    · intro a
      rw [hcount, hlookup]
      by_cases ha : a = s.lockCount
      · subst ha
        simp
      · rw [if_neg ha, htables.named]
        omega

theorem Tables.id_unique {s : Profiler Name} (htables : Tables s) {a b : ℕ} {x : Name}
    (ha : s.idToName.lookup a = some x) (hb : s.idToName.lookup b = some x) : a = b := by
  rw [← htables.inverse] at ha hb
  rw [ha] at hb
  exact Option.some.inj hb

theorem Inv.register {s s' : Profiler Name} {name : Name} {lockId : ℕ} (hinv : Inv s)
    (hreg : Registers s name lockId s') : Inv s' := by
  obtain ⟨_, hedges, hstack, hadjacent, hacyclic⟩ := hinv
  have hcount := hreg.count
  refine ⟨hreg.tables, ?_, ?_, ?_, ?_⟩
  · intro a b hedge
    rw [hreg.history] at hedge
    obtain ⟨ha, hb, hne⟩ := hedges a b hedge
    exact ⟨by omega, by omega, hne⟩
  · intro a ha
    rw [hreg.stack] at ha
    exact Nat.lt_of_lt_of_le (hstack a ha) hcount
  · rw [hreg.stack, hreg.history]
    exact hadjacent
  · rw [hreg.history]
    exact hacyclic

theorem Inv.edges_noted {s : Profiler Name} (hinv : Inv s) {lockId : ℕ}
    (hid : lockId < s.lockCount) {a b : ℕ} (hedge : Edge (s.noted lockId).lockHistory a b) :
    a < s.lockCount ∧ b < s.lockCount ∧ a ≠ b := by
  rcases (edge_noted s lockId a b).mp hedge with hedge | ⟨htop, rfl, hne⟩
  · exact hinv.edges a b hedge
  · exact ⟨hinv.stack a (List.mem_of_mem_head? (Option.mem_def.mpr htop)), hid, hne⟩

/-- Pushing an issued id keeps the invariant as long as the noted edge closes no
cycle. -/
theorem Inv.pushed {s : Profiler Name} (hinv : Inv s) {lockId : ℕ} (hid : lockId < s.lockCount)
    (hacyclic : Acyclic (Edge (s.noted lockId).lockHistory)) : Inv (s.pushed lockId) := by
  obtain ⟨hnames, hids, hstack⟩ := noted_fields s lockId
  have hcount : (s.pushed lockId).lockCount = s.lockCount := by
    change (s.noted lockId).nameToId.keys.length = s.nameToId.keys.length
    rw [hnames]
  have hedge (a b : ℕ) : Edge s.lockHistory a b → Edge (s.pushed lockId).lockHistory a b :=
    fun h => (edge_noted s lockId a b).mpr (.inl h)
  refine ⟨⟨?_, ?_⟩, ?_, ?_, ?_, hacyclic⟩
  · intro name a
    change (s.noted lockId).nameToId.lookup name = some a ↔ (s.noted lockId).idToName.lookup a = _
    rw [hnames, hids]
    exact hinv.inverse name a
  · intro a
    rw [hcount]
    change (∃ name, (s.noted lockId).idToName.lookup a = some name) ↔ _
    rw [hids]
    exact hinv.named a
  · intro a b h
    rw [hcount]
    exact hinv.edges_noted hid h
  · intro a ha
    rw [hcount]
    rcases List.mem_cons.mp ha with rfl | ha
    · exact hid
    · exact hinv.stack a ha
  · have hold : s.lockStack.IsChain fun upper lower =>
        upper = lower ∨ Edge (s.pushed lockId).lockHistory lower upper :=
      hinv.adjacent.imp fun _ _ h => h.imp_right (hedge _ _)
    refine List.isChain_cons.mpr ⟨fun top htop => ?_, hold⟩
    by_cases heq : lockId = top
    · exact .inl heq
    · exact .inr ((edge_noted s lockId top lockId).mpr
        (.inr ⟨htop, rfl, fun h => heq h.symm⟩))

omit [DecidableEq Name] in
/-- The check on any history whose edges are in range: it returns and changes nothing,
or crashes because there is a cycle. -/
theorem check_ends {s : Profiler Name}
    (hedges : ∀ a b, Edge s.lockHistory a b → a < s.lockCount ∧ b < s.lockCount ∧ a ≠ b) :
    (s.check = .ok s ∧ Acyclic (Edge s.lockHistory)) ∨
      (∃ report, s.check = .error (.crash .deadlockDetected report)) ∧
        ¬ Acyclic (Edge s.lockHistory) := by
  have hends := checkCycle_ends (fun a b h => (hedges a b h).2.1) fun a h => (hedges a a h).2.2 rfl
  unfold check
  cases hcheck : checkCycle s.lockHistory s.lockCount with
  | ok _ =>
    rw [hcheck] at hends
    exact .inl ⟨rfl, hends⟩
  | error fault =>
    rw [hcheck] at hends
    have hcyclic := hends.not_acyclic
    obtain ⟨_, report, rfl, _⟩ := hends
    exact .inr ⟨⟨_, rfl⟩, hcyclic⟩

omit [DecidableEq Name] in
/-- `CheckCycle` decides acyclicity: it crashes exactly on the graphs with a cycle, and
returns with the profiler unchanged on the others. No vector is accessed out of its
bounds, and the bounds on the recursion and the report are never reached. -/
theorem checkCycle_decides (s : Profiler Name)
    (hedges : ∀ a b, Edge s.lockHistory a b → a < s.lockCount ∧ b < s.lockCount ∧ a ≠ b) :
    ((∃ report, s.check = .error (.crash .deadlockDetected report)) ↔
      ∃ a, TransGen (Edge s.lockHistory) a a) ∧
    (s.check = .ok s ↔ ¬ ∃ a, TransGen (Edge s.lockHistory) a a) ∧
    s.check ≠ .error .outOfRange ∧ s.check ≠ .error .noParent ∧ s.check ≠ .error .outOfFuel := by
  rcases check_ends hedges with ⟨hok, hacyclic⟩ | ⟨⟨report, hcrash⟩, hcyclic⟩
  · have hnone : ¬ ∃ a, TransGen (Edge s.lockHistory) a a := fun ⟨a, hcycle⟩ => hacyclic a hcycle
    rw [hok]
    refine ⟨iff_of_false nofun hnone, iff_of_true rfl hnone, nofun, nofun, nofun⟩
  · have hsome : ∃ a, TransGen (Edge s.lockHistory) a a := by
      by_contra hnone
      exact hcyclic fun a hcycle => hnone ⟨a, hcycle⟩
    rw [hcrash]
    exact ⟨iff_of_true ⟨report, rfl⟩ hsome, iff_of_false nofun (not_not.mpr hsome), nofun, nofun, nofun⟩

/-- Two locks, each acquired below the other. -/
def opposed : Profiler Char :=
  (((({} : Profiler Char).register 'a').2.register 'b').2.record 0 1).record 1 0

theorem opposed_edges (a b : ℕ) (hedge : Edge opposed.lockHistory a b) :
    a < opposed.lockCount ∧ b < opposed.lockCount ∧ a ≠ b := by
  have hcount : opposed.lockCount = 2 := rfl
  rw [opposed, edge_record, edge_record] at hedge
  rw [hcount]
  rcases hedge with (⟨_, hlookup, -⟩ | ⟨rfl, rfl⟩) | ⟨rfl, rfl⟩
  · cases hlookup
  · decide
  · decide

theorem checkCycle_decides_opposed :
    (∃ report, opposed.check = .error (.crash .deadlockDetected report)) ∧
      ∃ a, TransGen (Edge opposed.lockHistory) a a := by
  have hcrash : ∃ report, opposed.check = .error (.crash .deadlockDetected report) := ⟨_, rfl⟩
  exact ⟨hcrash, (checkCycle_decides opposed opposed_edges).1.mp hcrash⟩

/-- The check after an edge has been noted, on a history whose old edges are in
range. -/
theorem check_noted {s : Profiler Name} (hinv : Inv s) {lockId : ℕ} (hid : lockId < s.lockCount) :
    ((s.noted lockId).check = .ok (s.noted lockId) ∧
      Acyclic (Edge (s.noted lockId).lockHistory)) ∨
    (∃ report, (s.noted lockId).check = .error (.crash .deadlockDetected report)) ∧
      ¬ Acyclic (Edge (s.noted lockId).lockHistory) := by
  have hcount : (s.noted lockId).lockCount = s.lockCount := by
    unfold lockCount
    rw [(noted_fields s lockId).1]
  exact check_ends fun a b hedge => hcount.symm ▸ hinv.edges_noted hid hedge

/-- Having registered its name, a push returns with the edge noted, or it ends
in the crash because the noted edge closes a cycle. -/
theorem pushLock_cases {s s' : Profiler Name} {name : Name} {lockId : ℕ} (hinv : Inv s)
    (hreg : Registers s name lockId s') :
    (s.pushLock name = .ok (s'.pushed lockId) ∧ Inv (s'.pushed lockId)) ∨
      (∃ report, s.pushLock name = .error (.crash .deadlockDetected report)) ∧
        ¬ Acyclic (Edge (s'.noted lockId).lockHistory) := by
  have hinv' := hinv.register hreg
  have hid : lockId < s'.lockCount := (hreg.tables.named lockId).mp ⟨name, hreg.named⟩
  have hquiet (hsame : s'.noted lockId = s') : Inv (s'.pushed lockId) :=
    hinv'.pushed hid (hsame.symm ▸ hinv'.acyclic)
  cases hlocks : s'.lockStack with
  | nil =>
    have hsame : s'.noted lockId = s' := by
      unfold noted
      rw [hlocks]
    refine .inl ⟨?_, hquiet hsame⟩
    simp only [pushLock, hreg.eq, hlocks, pushed, hsame]
    rw [← hlocks]
    rfl
  | cons prevId rest =>
    by_cases hnew : lockId ≠ prevId ∧ lockId ∉ s'.history prevId
    · have hrecord : s'.noted lockId = s'.record prevId lockId := by
        unfold noted
        rw [hlocks]
        exact if_pos hnew
      rcases check_noted hinv' hid with ⟨hcheck, hacyclic⟩ | ⟨⟨report, hcheck⟩, hcyclic⟩
      · refine .inl ⟨?_, hinv'.pushed hid hacyclic⟩
        rw [hrecord] at hcheck
        simp only [pushLock, hreg.eq, hlocks, if_pos hnew, pushed, hrecord, hcheck]
        rw [← hlocks]
        rfl
      · refine .inr ⟨⟨report, ?_⟩, hcyclic⟩
        rw [hrecord] at hcheck
        simp only [pushLock, hreg.eq, hlocks, if_pos hnew, hcheck]
        rfl
    · have hsame : s'.noted lockId = s' := by
        unfold noted
        rw [hlocks]
        exact if_neg hnew
      refine .inl ⟨?_, hquiet hsame⟩
      simp only [pushLock, hreg.eq, hlocks, if_neg hnew, pushed, hsame]
      rw [← hlocks]
      rfl

end Profiler

end CppServer.DeadLockProfiler
