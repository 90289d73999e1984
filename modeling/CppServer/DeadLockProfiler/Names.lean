import CppServer.DeadLockProfiler.Calls

namespace CppServer.DeadLockProfiler.Profiler

open Base Base.Graph Relation

variable {Name : Type}

def names (s : Profiler Name) (ids : List ℕ) : List Name := ids.filterMap fun lockId => s.idToName.lookup lockId

/-- The names whose ids are on the stack. -/
def held (s : Profiler Name) : List Name := s.names s.lockStack

theorem names_cons {s : Profiler Name} {a : ℕ} {x : Name} (hx : s.idToName.lookup a = some x)
    (rest : List ℕ) : s.names (a :: rest) = x :: s.names rest :=
  List.filterMap_cons_some (f := fun lockId => s.idToName.lookup lockId) hx

/-- An edge of the history between two names. -/
def NameEdge (s : Profiler Name) (x y : Name) : Prop :=
  ∃ a b, s.idToName.lookup a = some x ∧ s.idToName.lookup b = some y ∧ Edge s.lockHistory a b

variable [DecidableEq Name] {s s' : Profiler Name} {name : Name} {lockId : ℕ}

/-- A cycle of names is a cycle of ids. -/
theorem Tables.acyclic_nameEdge (htables : Tables s) (hacyclic : Acyclic (Edge s.lockHistory)) :
    Acyclic (NameEdge s) := by
  apply Acyclic.of_partialMap (f := fun x => s.nameToId.lookup x) _ hacyclic
  rintro x y ⟨a, b, hx, hy, hedge⟩
  exact ⟨a, b, (htables.inverse x a).mpr hx, (htables.inverse y b).mpr hy, hedge⟩

theorem Inv.exists_name (hinv : Inv s) {a : ℕ} (ha : a ∈ s.lockStack) :
    ∃ x, s.idToName.lookup a = some x :=
  (hinv.named a).mpr (hinv.stack a ha)

theorem Inv.held_cons (hinv : Inv s) {top : ℕ} {rest : List ℕ} (hstack : s.lockStack = top :: rest) :
    ∃ x, s.idToName.lookup top = some x ∧
      s.held = x :: s.names rest := by
  obtain ⟨x, hx⟩ := hinv.exists_name (hstack ▸ List.mem_cons_self)
  exact ⟨x, hx, by rw [held, hstack, names_cons hx]⟩

theorem Inv.head_held (hinv : Inv s) {x : Name} :
    s.held.head? = some x ↔ ∃ a, s.lockStack.head? = some a ∧ s.idToName.lookup a = some x := by
  cases hstack : s.lockStack with
  | nil => simp [held, names, hstack]
  | cons top rest =>
    obtain ⟨y, hy, hheld⟩ := hinv.held_cons hstack
    simp [hheld, hy]

/-- Neighbours on the stack are equal or an edge of the history. -/
theorem Inv.adjacent_held (hinv : Inv s) :
    s.held.IsChain fun upper lower => upper = lower ∨ NameEdge s lower upper := by
  have hnamed := fun a (ha : a ∈ s.lockStack) => hinv.exists_name ha
  have hadjacent := hinv.adjacent
  unfold held
  generalize s.lockStack = stack at hnamed hadjacent
  induction stack with
  | nil => exact .nil
  | cons top rest ih =>
    obtain ⟨x, hx⟩ := hnamed top List.mem_cons_self
    have hrest := ih (fun a ha => hnamed a (List.mem_cons_of_mem top ha)) hadjacent.tail
    rw [names_cons hx]
    cases rest with
    | nil => exact List.isChain_singleton x
    | cons next rest =>
      obtain ⟨y, hy⟩ := hnamed next (List.mem_cons_of_mem top List.mem_cons_self)
      rw [names_cons hy] at hrest ⊢
      refine List.isChain_cons_cons.mpr ⟨?_, hrest⟩
      rcases (List.isChain_cons_cons.mp hadjacent).1 with rfl | hedge
      · rw [hx] at hy
        exact .inl (Option.some.inj hy)
      · exact .inr ⟨next, top, hy, hx, hedge⟩

/-- The edges after a push: those before, and the one from the lock on top of
the stack, unless that is the pushed lock itself. -/
def NotesEdge (s : Profiler Name) (name : Name) (s' : Profiler Name) : Prop :=
  ∀ x y, NameEdge s' x y ↔ NameEdge s x y ∨ (s.held.head? = some x ∧ y = name ∧ x ≠ name)

theorem Registers.notesEdge (hreg : Registers s name lockId s') (hinv : Inv s) :
    NotesEdge s name (s'.pushed lockId) := by
  intro x y
  have hids : (s'.pushed lockId).idToName = s'.idToName := (noted_fields s' lockId).2.1
  have hedges (a b : ℕ) : Edge (s'.pushed lockId).lockHistory a b ↔
      Edge s.lockHistory a b ∨ (s.lockStack.head? = some a ∧ b = lockId ∧ a ≠ lockId) := by
    rw [← hreg.history, ← hreg.stack]
    exact edge_noted s' lockId a b
  unfold NameEdge
  rw [hids, hinv.head_held]
  constructor
  · rintro ⟨a, b, hx, hy, hedge⟩
    rcases (hedges a b).mp hedge with hedge | ⟨htop, rfl, hne⟩
    · obtain ⟨ha, hb, _⟩ := hinv.edges a b hedge
      exact .inl ⟨a, b, hreg.keep a ha ▸ hx, hreg.keep b hb ▸ hy, hedge⟩
    · have ha := hinv.stack a (List.mem_of_mem_head? (Option.mem_def.mpr htop))
      rw [hreg.named] at hy
      cases hy
      refine .inr ⟨⟨a, htop, hreg.keep a ha ▸ hx⟩, rfl, ?_⟩
      rintro rfl
      exact hne (hreg.tables.id_unique hx hreg.named)
  · rintro (⟨a, b, hx, hy, hedge⟩ | ⟨⟨a, htop, hx⟩, rfl, hne⟩)
    · obtain ⟨ha, hb, _⟩ := hinv.edges a b hedge
      refine ⟨a, b, ?_, ?_, (hedges a b).mpr (.inl hedge)⟩
      · rw [hreg.keep a ha, hx]
      · rw [hreg.keep b hb, hy]
    · have ha := hinv.stack a (List.mem_of_mem_head? (Option.mem_def.mpr htop))
      rw [← hreg.keep a ha] at hx
      refine ⟨a, lockId, hx, hreg.named, (hedges a lockId).mpr (.inr ⟨htop, rfl, ?_⟩)⟩
      rintro rfl
      rw [hreg.named] at hx
      exact hne (Option.some.inj hx).symm

theorem Registers.held_eq (hreg : Registers s name lockId s') (hinv : Inv s) :
    (s'.pushed lockId).held = name :: s.held := by
  have hids : (s'.pushed lockId).idToName = s'.idToName := (noted_fields s' lockId).2.1
  have hstack : (s'.pushed lockId).lockStack = lockId :: s.lockStack := by
    rw [← hreg.stack]
    rfl
  have hnamed : (s'.pushed lockId).idToName.lookup lockId = some name := by
    rw [hids]
    exact hreg.named
  rw [held, hstack, names_cons hnamed, held, names, hids]
  congr 1
  apply List.filterMap_congr
  intro a ha
  exact hreg.keep a (hinv.stack a ha)

theorem Registers.acyclic_edge (hreg : Registers s name lockId s') (hinv : Inv s)
    (hacyclic : Acyclic (NameEdge (s'.pushed lockId))) :
    Acyclic (Edge (s'.noted lockId).lockHistory) := by
  apply hacyclic.of_partialMap (f := fun a => s'.idToName.lookup a)
  intro a b hedge
  have hid : lockId < s'.lockCount := (hreg.tables.named lockId).mp ⟨name, hreg.named⟩
  obtain ⟨ha, hb, _⟩ := (hinv.register hreg).edges_noted hid hedge
  obtain ⟨x, hx⟩ := (hreg.tables.named a).mpr ha
  obtain ⟨y, hy⟩ := (hreg.tables.named b).mpr hb
  have hids := (noted_fields s' lockId).2.1
  exact ⟨x, y, hx, hy, a, b, hids.symm ▸ hx, hids.symm ▸ hy, hedge⟩

/-- What a push leaves behind if it returns, and when it does: it crashes exactly
if the edge from the top of the stack closes a cycle of names. -/
theorem pushLock_spec (hinv : Inv s) (name : Name) :
    ∃ s', s'.held = name :: s.held ∧ (∀ x, x ∈ s'.nameToId ↔ x = name ∨ x ∈ s.nameToId) ∧
      NotesEdge s name s' ∧ ((s.pushLock name = .ok s' ∧ Inv s') ∨
        (∃ report, s.pushLock name = .error (.crash .deadlockDetected report)) ∧
          ¬ Acyclic (NameEdge s')) := by
  obtain ⟨lockId, s', hreg⟩ := registers hinv.toTables name
  refine ⟨s'.pushed lockId, hreg.held_eq hinv, ?_, hreg.notesEdge hinv, ?_⟩
  · intro x
    change x ∈ (s'.noted lockId).nameToId ↔ _
    rw [(noted_fields s' lockId).1]
    exact hreg.known x
  · rcases pushLock_cases hinv hreg with hok | ⟨hcrash, hcyclic⟩
    · exact .inl hok
    · exact .inr ⟨hcrash, fun hacyclic => hcyclic (hreg.acyclic_edge hinv hacyclic)⟩

/-- Popping a known name takes it off the top of the stack, or crashes when it is
not there. -/
theorem popLock_spec (hinv : Inv s) (hknown : name ∈ s.nameToId) :
    (∃ rest s', s.held = name :: rest ∧ s.popLock name = .ok s' ∧ Inv s' ∧ s'.held = rest ∧
      s'.nameToId = s.nameToId ∧ ∀ x y, NameEdge s' x y ↔ NameEdge s x y) ∨
    s.held.head? ≠ some name ∧ ∃ cause, s.popLock name = .error (.crash cause []) := by
  obtain ⟨lockId, hid⟩ := Option.isSome_iff_exists.mp (AList.lookup_isSome.mpr hknown)
  have hname := (hinv.inverse name lockId).mp hid
  unfold popLock
  cases hstack : s.lockStack with
  | nil => exact .inr ⟨by simp [held, names, hstack], _, rfl⟩
  | cons top rest =>
    obtain ⟨x, hx, hheld⟩ := hinv.held_cons hstack
    simp only [hid]
    by_cases htop : lockId = top
    · subst htop
      rw [hname] at hx
      cases hx
      refine .inl ⟨_, { s with lockStack := rest }, hheld, by simp, ?_, rfl, rfl, fun _ _ => Iff.rfl⟩
      have hsuffix := hinv.stack
      have hchain := hinv.adjacent
      rw [hstack] at hsuffix hchain
      exact ⟨⟨hinv.inverse, hinv.named⟩, hinv.edges,
        fun a ha => hsuffix a (List.mem_cons_of_mem _ ha), hchain.tail, hinv.acyclic⟩
    · refine .inr ⟨?_, .invalidUnlock, by rw [if_pos htop]⟩
      rw [hheld, List.head?_cons]
      intro heq
      cases heq
      exact htop (hinv.id_unique hname hx)

end CppServer.DeadLockProfiler.Profiler
