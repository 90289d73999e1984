import CppServer.LockFreeStack.Refinement

namespace CppServer.LockFreeStack

open Function Base

/-- The entry whose `next` a pop will read: the top of the header that it has copied, or of
the half that it has read so far. -/
def Pc.reading : Pc → Option Addr
  | .popRead none (some region) =>
    if entryOf region.next = 0 then none else some (entryOf region.next)
  | .popNext expected => some (entryOf expected.region.next)
  | .idle | .pushRead _ _ _ | .pushLink _ _ | .pushExchange _ _ | .popRead none none
  | .popRead (some _) _ | .popExchange _ _ | .done _ => none

/-- The threads of one header, whose callers free entries. -/
structure Reclaiming (T : Type) where
  threads : Threads T
  freed : Addr → Bool := fun _ => false

namespace Reclaiming

/-- A label: one of the threads', or the owner of an entry frees it, or a freed entry is
allocated again. -/
inductive Act (T : Type)
  | act (a : LockFreeStack.Act T)
  | free (entry : Addr)
  | allocate (entry : Addr)
deriving DecidableEq

variable {T : Type} [DecidableEq T]

def step (s : Reclaiming T) : Act T → Option (Reclaiming T)
  | .act a => (s.threads.step a).map fun threads => { s with threads }
  | .free entry =>
    if s.threads.held entry = true then
      some { threads := { s.threads with held := update s.threads.held entry false }
             freed := update s.freed entry true }
    else none
  | .allocate entry =>
    if s.freed entry = true then
      some { threads := { s.threads with held := update s.threads.held entry true }
             freed := update s.freed entry false }
    else none

def machine (T : Type) [DecidableEq T] (memory : Memory) (held : Addr → Bool) :
    Machine (Reclaiming T) (Act T) where
  start := { threads := (Threads.machine T memory held).start }
  step := step

omit [DecidableEq T] in
/-- The next step reads `entry->next` of an entry that has been freed. -/
def Act.ReadsFreed (s : Reclaiming T) : Act T → Prop
  | .act (.run t _) =>
    ∃ expected, s.threads.pc t = .popNext expected ∧ s.freed (entryOf expected.region.next) = true
  | .act (.call _ _) | .act (.scribble _ _) | .free _ | .allocate _ => False

omit [DecidableEq T] in
/-- No pop will read the entry. -/
def Clear (s : Reclaiming T) (entry : Addr) : Prop := ∀ t, (s.threads.pc t).reading ≠ some entry

omit [DecidableEq T] in
/-- An entry is freed when no pop has copied the header with it on top and still has to read
it, and no pop exchanges a link that is not its entry's any more, for which the sequence would
have to come round. -/
def Careful (s : Reclaiming T) : Act T → Reclaiming T → Prop
  | .act act, _ => s.threads.LinkKept act
  | .free entry, _ => s.Clear entry
  | .allocate _, _ => True

end Reclaiming

/-- The entry on top of the stack. -/
def Memory.top (m : Memory) : Addr := entryOf m.header.region.next

/-- Where a pop is that has read a half of the header: it has found no entry, goes on reading, or
has both halves, with the region that it had or the one of the header. -/
inductive PopReads (m : Memory) (alignment : Option Alignment) (region : Option Region) : Pc → Prop
  | empty : PopReads m alignment region (.done (.popped none))
  | alignment (a : Alignment) : PopReads m alignment region (.popRead (some a) none)
  | region : PopReads m alignment region (.popRead none (some m.header.region))
  | both (a : Alignment) (r : Region)
      (hregion : alignment = none ∧ region = some r ∨ r = m.header.region)
      (hsome : entryOf r.next ≠ 0) : PopReads m alignment region (.popNext ⟨a, r⟩)

theorem popReads_of_step {half : Half} {m m' : Memory} {alignment : Option Alignment}
    {region : Option Region} {pc' : Pc}
    (hcode : step half m (.popRead alignment region) = some (m', pc')) :
    PopReads m alignment region pc' := by
  cases half with
  | alignment =>
    cases alignment with
    | some a => cases hcode
    | none =>
      cases region with
      | none =>
        cases hcode
        exact .alignment _
      | some r =>
        simp only [step, readHalf] at hcode
        split at hcode
        case isTrue =>
          cases hcode
          exact .empty
        case isFalse hsome =>
          cases hcode
          exact .both _ r (.inl ⟨rfl, rfl⟩) hsome
  | region =>
    cases region with
    | some r => cases alignment <;> cases hcode
    | none =>
      cases alignment with
      | none =>
        cases hcode
        exact .region
      | some a =>
        simp only [step, readHalf] at hcode
        split at hcode
        case isTrue =>
          cases hcode
          exact .empty
        case isFalse hsome =>
          cases hcode
          exact .both a _ (.inr rfl) hsome

/-- What a step is going to read it was going to read before, or it is on top. -/
theorem reading_step {half : Half} {m m' : Memory} {pc pc' : Pc}
    (hcode : step half m pc = some (m', pc')) {entry : Addr} (hreading : pc'.reading = some entry) :
    pc.reading = some entry ∨ entry = m.top ∧ entry ≠ 0 := by
  cases pc with
  | idle => cases hcode
  | pushRead entry' alignment region =>
    cases half <;> cases alignment <;> cases region <;> cases hcode <;> cases hreading
  | pushLink entry' expected =>
    cases hcode
    cases hreading
  | pushExchange entry' expected =>
    simp only [step] at hcode
    split at hcode <;> cases hcode <;> cases hreading
  | popRead alignment region =>
    cases popReads_of_step hcode with
    | empty => cases hreading
    | alignment => cases hreading
    | region =>
      simp only [Pc.reading] at hreading
      split at hreading
      case isTrue => cases hreading
      case isFalse hsome =>
        cases hreading
        exact .inr ⟨rfl, hsome⟩
    | both a r hregion hsome =>
      cases hreading
      rcases hregion with ⟨rfl, rfl⟩ | rfl
      · exact .inl (if_neg hsome)
      · exact .inr ⟨rfl, hsome⟩
  | popNext expected =>
    cases hcode
    cases hreading
  | popExchange expected next =>
    simp only [step] at hcode
    split at hcode <;> cases hcode <;> cases hreading
  | done result =>
    cases hcode
    cases hreading

/-- What a step has in its hands it had before, or it has taken it off the top. -/
theorem entry_step {half : Half} {m m' : Memory} {pc pc' : Pc}
    (hcode : step half m pc = some (m', pc')) {entry : Addr} (hentry : pc'.entry = some entry) :
    pc.entry = some entry ∨ entry = m.top ∧ ∃ next, pc = .popExchange m.header next := by
  cases pc with
  | idle => cases hcode
  | pushRead entry' alignment region =>
    cases half <;> cases alignment <;> cases region <;> cases hcode <;> exact .inl hentry
  | pushLink entry' expected =>
    cases hcode
    exact .inl hentry
  | pushExchange entry' expected =>
    simp only [step] at hcode
    split at hcode
    case isTrue =>
      cases hcode
      cases hentry
    case isFalse =>
      cases hcode
      exact .inl hentry
  | popRead alignment region =>
    cases popReads_of_step hcode <;> cases hentry
  | popNext expected =>
    cases hcode
    cases hentry
  | popExchange expected next =>
    simp only [step] at hcode
    split at hcode
    case isTrue hequal =>
      cases hcode
      cases hentry
      subst hequal
      exact .inr ⟨rfl, next, rfl⟩
    case isFalse =>
      cases hcode
      cases hentry
  | done result =>
    cases hcode
    cases hentry

/-- The entry is in no hands, not on the stack, and no pop will read it. -/
structure Nowhere {T : Type} (s : Threads T) (stack : List Addr) (entry : Addr) : Prop where
  held : s.held entry = false
  calls : ∀ t, (s.pc t).entry ≠ some entry
  stack : entry ∉ stack
  reading : ∀ t, (s.pc t).reading ≠ some entry

variable {T : Type} {s s' : Threads T} {a a' : Atomic T} {entry : Addr}

theorem Pc.entry_of_pushing {pc : Pc} (hstatus : pc.status = .pushing entry) :
    pc.entry = some entry := by
  cases pc with
  | pushRead entry' alignment region =>
    cases hstatus
    rfl
  | pushLink entry' expected =>
    cases hstatus
    rfl
  | pushExchange entry' expected =>
    cases hstatus
    rfl
  | popRead alignment region =>
    cases region with
    | none => cases hstatus
    | some region =>
      simp only [Pc.status] at hstatus
      split at hstatus <;> cases hstatus
  | _ => cases hstatus

/-- The top of the stack is one of its entries. -/
theorem Inv.top_mem {stack : List Addr} (hinv : Inv s stack) (hsome : s.memory.top ≠ 0) :
    s.memory.top ∈ stack := by
  obtain ⟨rest, rfl, -⟩ := hinv.holds.linked.exists_cons hsome
  exact List.mem_cons_self

theorem Pc.held_of_returned {held : Addr → Bool} {pc : Pc} (hheld : pc.returned held entry = true) :
    held entry = true ∨ pc.entry = some entry := by
  cases pc with
  | done result =>
    cases result with
    | pushed => exact .inl hheld
    | popped popped =>
      cases popped with
      | none => exact .inl hheld
      | some popped =>
        by_cases heq : entry = popped
        · subst heq
          exact .inr rfl
        · simp only [Pc.returned, update_of_ne heq] at hheld
          exact .inl hheld
  | _ => exact .inl hheld

variable [DecidableEq T]

/-- What a step of the atomic stack puts on the stack was to be pushed. -/
theorem Atomic.mem_stack_step {event : Event T} (hstep : (Atomic.machine T).step a event = some a')
    (hmem : entry ∈ a'.stack) : entry ∈ a.stack ∨ ∃ t, a.status t = .pushing entry := by
  cases event with
  | invoke t op =>
    simp only [Atomic.machine, Atomic.step] at hstep
    split at hstep <;> cases hstep
    exact .inl hmem
  | ret t result =>
    simp only [Atomic.machine, Atomic.step] at hstep
    split at hstep <;> cases hstep
    exact .inl hmem
  | commit t =>
    simp only [Atomic.machine, Atomic.step] at hstep
    cases hstatus : a.status t with
    | pushing entry' =>
      rw [hstatus] at hstep
      cases hstep
      rcases List.mem_cons.mp hmem with rfl | hmem
      · exact .inr ⟨t, hstatus⟩
      · exact .inl hmem
    | popping =>
      rw [hstatus] at hstep
      cases hstack : a.stack with
      | nil =>
        rw [hstack] at hstep
        cases hstep
        exact .inl hmem
      | cons top rest =>
        rw [hstack] at hstep
        cases hstep
        exact .inl (List.mem_cons_of_mem _ hmem)
    | idle =>
      rw [hstatus] at hstep
      cases hstep
    | done result =>
      rw [hstatus] at hstep
      cases hstep

omit [DecidableEq T] in
/-- The entries of a pop in flight come from the stack. -/
theorem Nowhere.uses (hnowhere : Nowhere s a.stack entry) (hinv : Inv s a.stack) {t : T}
    {half : Half} {memory : Memory} {pc : Pc} (hcode : step half s.memory (s.pc t) = some (memory, pc)) :
    pc.entry ≠ some entry ∧ pc.reading ≠ some entry := by
  constructor
  · intro hentry
    rcases entry_step hcode hentry with hold | ⟨rfl, next, hpc⟩
    · exact hnowhere.calls t hold
    · have hplace := hinv.place t
      rw [hpc] at hplace
      exact hnowhere.stack (hinv.top_mem hplace.1)
  · intro hreading
    rcases reading_step hcode hreading with hold | ⟨rfl, hsome⟩
    · exact hnowhere.reading t hold
    · exact hnowhere.stack (hinv.top_mem hsome)

/-- An entry that is nowhere stays so in what a step changes beside the stack. -/
theorem Nowhere.threads (hnowhere : Nowhere s a.stack entry) (hinv : Inv s a.stack)
    {act : Act T} (hstep : s.step act = some s') :
    s'.held entry = false ∧ ∀ t, (s'.pc t).entry ≠ some entry ∧ (s'.pc t).reading ≠ some entry := by
  cases act with
  | call t op =>
    simp only [Threads.step] at hstep
    split at hstep
    case isFalse => cases hstep
    case isTrue hcall =>
      cases hstep
      refine ⟨taken_of_not_held op hnowhere.held, ?_⟩
      apply (forall_update_iff s.pc fun _ pc => pc.entry ≠ some entry ∧ pc.reading ≠ some entry).mpr
      refine ⟨?_, fun u _ => ⟨hnowhere.calls u, hnowhere.reading u⟩⟩
      cases op with
      | push entry' =>
        refine ⟨fun hentry => ?_, (Option.some_ne_none _).symm⟩
        cases hentry
        have hheld := hcall.2.1
        rw [hnowhere.held] at hheld
        cases hheld
      | pop => exact ⟨(Option.some_ne_none _).symm, (Option.some_ne_none _).symm⟩
  | run t half =>
    obtain ⟨memory, pc, hcode, rfl⟩ := Threads.step_run hstep
    refine ⟨?_, ?_⟩
    · refine Bool.eq_false_iff.mpr fun hheld => ?_
      rcases Pc.held_of_returned hheld with hold | hentry
      · rw [hnowhere.held] at hold
        cases hold
      · exact hnowhere.calls t hentry
    · apply (forall_update_iff s.pc fun _ pc => pc.entry ≠ some entry ∧ pc.reading ≠ some entry).mpr
      exact ⟨hnowhere.uses hinv hcode, fun u _ => ⟨hnowhere.calls u, hnowhere.reading u⟩⟩
  | scribble entry' value =>
    simp only [Threads.step] at hstep
    split at hstep <;> cases hstep
    exact ⟨hnowhere.held, fun t => ⟨hnowhere.calls t, hnowhere.reading t⟩⟩

/-- A step that keeps the refinement keeps all entries nowhere that are. -/
theorem Refines.nowhere_step (hrefines : Refines s a) {act : Act T} (hlink : s.LinkKept act)
    (hstep : s.step act = some s') :
    ∃ a', Refines s' a' ∧ ∀ entry, Nowhere s a.stack entry → Nowhere s' a'.stack entry := by
  have hmatched := matched_step hrefines hlink hstep
  have hstack : ∃ a', Refines s' a' ∧
      ∀ entry ∈ a'.stack, entry ∈ a.stack ∨ ∃ t, a.status t = .pushing entry := by
    cases hevent : linearize s act s' with
    | none =>
      rw [hevent] at hmatched
      exact ⟨a, hmatched, fun _ hmem => .inl hmem⟩
    | some event =>
      rw [hevent] at hmatched
      obtain ⟨a', hatomic, hrefines'⟩ := hmatched
      exact ⟨a', hrefines', fun _ hmem => Atomic.mem_stack_step hatomic hmem⟩
  obtain ⟨a', hrefines', hmem⟩ := hstack
  refine ⟨a', hrefines', fun entry hnowhere => ?_⟩
  obtain ⟨hheld, hcalls⟩ := hnowhere.threads hrefines.inv hstep
  refine ⟨hheld, fun t => (hcalls t).1, fun hin => ?_, fun t => (hcalls t).2⟩
  rcases hmem entry hin with hold | ⟨t, hpushing⟩
  · exact hnowhere.stack hold
  · rw [hrefines.status t] at hpushing
    exact hnowhere.calls t (Pc.entry_of_pushing hpushing)

namespace Reclaiming

/-- The threads refine the atomic stack, and freed entries are nowhere. -/
def Inv (s : Reclaiming T) : Prop :=
  ∃ a, Refines s.threads a ∧ ∀ entry, s.freed entry = true → Nowhere s.threads a.stack entry

variable {s s' : Reclaiming T} {memory : Memory} {held : Addr → Bool} {acts : List (Act T)}

theorem inv_start : Inv (machine T memory held).start :=
  ⟨{}, ⟨LockFreeStack.inv_start memory held, fun _ => rfl⟩,
    fun _ hfreed => absurd hfreed Bool.false_ne_true⟩

theorem Inv.act {act : LockFreeStack.Act T} (hinv : s.Inv) (hstep : s.step (.act act) = some s')
    (hlink : s.threads.LinkKept act) : s'.Inv := by
  obtain ⟨a, hrefines, hfreed⟩ := hinv
  obtain ⟨threads, hthreads, rfl⟩ := Option.map_eq_some_iff.mp hstep
  obtain ⟨a', hrefines', hnowhere⟩ := hrefines.nowhere_step hlink hthreads
  exact ⟨a', hrefines', fun entry hentry => hnowhere entry (hfreed entry hentry)⟩

theorem step_free {entry : Addr} (hstep : s.step (.free entry) = some s') :
    s.threads.held entry = true ∧
      s' = { threads := { s.threads with held := update s.threads.held entry false }
             freed := update s.freed entry true } := by
  simp only [step] at hstep
  split at hstep
  case isTrue hheld =>
    cases hstep
    exact ⟨hheld, rfl⟩
  case isFalse => cases hstep

/-- An entry that is freed leaves its owner's hands, and was nowhere else. -/
theorem Inv.free {entry : Addr} (hinv : s.Inv) (hstep : s.step (.free entry) = some s')
    (hclear : s.Clear entry) : s'.Inv := by
  obtain ⟨a, ⟨hinv, hstatus⟩, hfreed⟩ := hinv
  obtain ⟨hheld, rfl⟩ := step_free hstep
  have hless (e : Addr) (he : s.threads.held e = false) :
      update s.threads.held entry false e = false := taken_of_not_held (.push entry) he
  refine ⟨a, ⟨⟨hinv.holds, fun e he => hless e (hinv.free e he), hinv.begun, ?_, hinv.apart,
    hinv.place⟩, hstatus⟩, fun e he => ?_⟩
  · intro t e he
    obtain ⟨haligned, hne, hnot, hout⟩ := hinv.owned t e he
    exact ⟨haligned, hne, hless e hnot, hout⟩
  · by_cases heq : e = entry
    · subst heq
      refine ⟨update_self .., fun t ht => ?_, hinv.not_mem_of_held hheld, hclear⟩
      have hnot := (hinv.owned t e ht).2.2.1
      rw [hheld] at hnot
      cases hnot
    · simp only [update_of_ne heq] at he
      obtain ⟨hnot, hcalls, hout, hreading⟩ := hfreed e he
      exact ⟨hless e hnot, hcalls, hout, hreading⟩

theorem step_allocate {entry : Addr} (hstep : s.step (.allocate entry) = some s') :
    s.freed entry = true ∧
      s' = { threads := { s.threads with held := update s.threads.held entry true }
             freed := update s.freed entry false } := by
  simp only [step] at hstep
  split at hstep
  case isTrue hfreed =>
    cases hstep
    exact ⟨hfreed, rfl⟩
  case isFalse => cases hstep

/-- An entry that is allocated again comes into its owner's hands from nowhere. -/
theorem Inv.allocate {entry : Addr} (hinv : s.Inv) (hstep : s.step (.allocate entry) = some s') :
    s'.Inv := by
  obtain ⟨a, ⟨hinv, hstatus⟩, hfreed⟩ := hinv
  obtain ⟨hentry, rfl⟩ := step_allocate hstep
  have hnowhere := hfreed entry hentry
  have hother {e : Addr} (hne : e ≠ entry) (he : s.threads.held e = false) :
      update s.threads.held entry true e = false := by
    rw [update_of_ne hne]
    exact he
  refine ⟨a, ⟨⟨hinv.holds, ?_, hinv.begun, ?_, hinv.apart, hinv.place⟩, hstatus⟩, fun e he => ?_⟩
  · intro e he
    refine hother (fun heq => ?_) (hinv.free e he)
    rw [heq] at he
    exact hnowhere.stack he
  · intro t e he
    obtain ⟨haligned, hne, hnot, hout⟩ := hinv.owned t e he
    refine ⟨haligned, hne, hother (fun heq => ?_) hnot, hout⟩
    rw [heq] at he
    exact hnowhere.calls t he
  · by_cases heq : e = entry
    · subst heq
      exact absurd he (Bool.eq_false_iff.mp (update_self ..))
    · simp only [update_of_ne heq] at he
      obtain ⟨hnot, hcalls, hout, hreading⟩ := hfreed e he
      exact ⟨hother heq hnot, hcalls, hout, hreading⟩

theorem Inv.step {act : Act T} (hinv : s.Inv) (hstep : s.step act = some s')
    (hcareful : Careful s act s') : s'.Inv := by
  cases act with
  | act act => exact hinv.act hstep hcareful
  | free entry => exact hinv.free hstep hcareful
  | allocate entry => exact hinv.allocate hstep

omit [DecidableEq T] in
theorem Inv.not_readsFreed (hinv : s.Inv) (act : Act T) : ¬ act.ReadsFreed s := by
  obtain ⟨a, -, hfreed⟩ := hinv
  cases act with
  | free entry => exact id
  | allocate entry => exact id
  | act act =>
    cases act with
    | call t op => exact id
    | scribble entry value => exact id
    | run t half =>
      rintro ⟨expected, hpc, hentry⟩
      apply (hfreed _ hentry).reading t
      rw [hpc]
      rfl

theorem step_run {t : T} {half : Half} {m : Memory} {pc : Pc}
    (hcode : LockFreeStack.step half s.threads.memory (s.threads.pc t) = some (m, pc)) :
    s.step (.act (.run t half)) = some { s with
      threads := { s.threads with
        memory := m
        held := (s.threads.pc t).returned s.threads.held
        pc := update s.threads.pc t pc
        exchanges := s.threads.exchanges + (s.threads.pc t).exchanged pc } } := by
  simp only [step, Threads.step, hcode, Option.map_some]

theorem exists_freed {entry : Addr} (hheld : s.threads.held entry = true) :
    ∃ s', s.step (.free entry) = some s' ∧ s'.threads.pc = s.threads.pc ∧ s'.freed entry = true :=
  ⟨_, if_pos hheld, rfl, update_self ..⟩

/-- If an entry is freed while a pop has it in view, that pop may read it next. -/
theorem reads_of_not_clear {entry : Addr} (hheld : s.threads.held entry = true)
    (hview : ¬ s.Clear entry) :
    ∃ acts' s' act, (machine T memory held).exec s (.free entry :: acts') = some s' ∧
      (s'.step act).isSome ∧ act.ReadsFreed s' := by
  obtain ⟨t, ht⟩ := not_forall.mp hview
  have hreading := not_not.mp ht
  obtain ⟨s₁, hfree, hpc₁, hfreed⟩ := exists_freed hheld
  cases hpc : s.threads.pc t with
  | popNext expected =>
    rw [hpc] at hreading
    cases hreading
    refine ⟨[], s₁, .act (.run t .region), (Machine.exec_singleton ..).trans hfree, ?_, expected,
      (congrFun hpc₁ t).trans hpc, hfreed⟩
    simp [step, Threads.step, hpc₁, hpc, LockFreeStack.step]
  | popRead alignment region =>
    rw [hpc] at hreading
    cases alignment with
    | some alignment => cases hreading
    | none =>
      cases region with
      | none => cases hreading
      | some region =>
        simp only [Pc.reading] at hreading
        split at hreading
        case isTrue => cases hreading
        case isFalse hsome =>
          cases hreading
          -- The pop reads the other half first.
          have hread : LockFreeStack.step .alignment s₁.threads.memory (s₁.threads.pc t) =
              some (s₁.threads.memory, .popNext ⟨s₁.threads.memory.header.alignment, region⟩) := by
            rw [hpc₁, hpc]
            exact if_neg hsome
          have hexec : (machine T memory held).exec s [.free _, .act (.run t .alignment)] =
              some _ :=
            Option.bind_eq_some_iff.mpr ⟨s₁, hfree,
              (Machine.exec_singleton (machine T memory held) ..).trans (step_run hread)⟩
          refine ⟨[_], _, .act (.run t .region), hexec, ?_, _, update_self .., hfreed⟩
          simp [step, Threads.step, LockFreeStack.step]
  | _ =>
    rw [hpc] at hreading
    cases hreading

/-- In a run in which an entry is freed only when no pop in flight has copied the header with
it on top and still has to read it, and no pop exchanges a link of another time, no step reads
the `next` of a freed entry. To free another entry lets the next steps of a pop read it. -/
theorem no_read_of_freed (hrun : (machine T memory held).Run Careful acts s) :
    (machine T memory held).Each acts (fun _ s act => ¬ act.ReadsFreed s) ∧
      ∀ entry, s.threads.held entry = true → ¬ s.Clear entry →
        ∃ acts' s' act, (machine T memory held).exec s (.free entry :: acts') = some s' ∧
          (s'.step act).isSome ∧ act.ReadsFreed s' := by
  refine ⟨?_, fun entry hheld hview => reads_of_not_clear hheld hview⟩
  apply hrun.each_of_invariant (P := Inv) inv_start
  · exact fun _ _ _ hinv hcareful hstep => hinv.step hstep hcareful
  · exact fun _ act hinv => hinv.not_readsFreed act

instance decidableClear [Fintype T] (s : Reclaiming T) (entry : Addr) : Decidable (s.Clear entry) :=
  inferInstanceAs (Decidable (∀ _, _))

instance decidableLinkKept (m : Memory) : (pc : Pc) → Decidable (pc.LinkKept m)
  | .popExchange _ _ => inferInstanceAs (Decidable (_ → _))
  | .idle | .pushRead _ _ _ | .pushLink _ _ | .pushExchange _ _ | .popRead _ _ | .popNext _
  | .done _ => isTrue trivial

instance decidableCareful [Fintype T] (s : Reclaiming T) (act : Act T) (s' : Reclaiming T) :
    Decidable (Careful s act s') :=
  match act with
  | .act (.run t _) => decidableLinkKept s.threads.memory (s.threads.pc t)
  | .act (.call _ _) | .act (.scribble _ _) => isTrue trivial
  | .free entry => inferInstanceAs (Decidable (s.Clear entry))
  | .allocate _ => isTrue trivial

/-- A push, and a pop while another pop has read the sequence. The entry is freed, allocated
and pushed again before the other pop takes it. -/
def carefully : List (Act Bool) :=
  [.act (.call false (.push 16)), .act (.run false .alignment), .act (.run false .region),
    .act (.run false .region), .act (.run false .region), .act (.run false .region),
    .act (.call true .pop), .act (.run true .alignment),
    .act (.call false .pop), .act (.run false .alignment), .act (.run false .region),
    .act (.run false .region), .act (.run false .region), .act (.run false .region),
    .free 16, .allocate 16,
    .act (.call false (.push 16)), .act (.run false .alignment), .act (.run false .region),
    .act (.run false .region), .act (.run false .region), .act (.run false .region),
    .act (.run true .region), .act (.run true .region)]

theorem no_read_of_freed_carefully :
    (machine Bool ⟨{}, id⟩ fun _ => true).Each carefully
      fun _ s act => ¬ act.ReadsFreed s := by
  have hcheck : ((machine Bool ⟨{}, id⟩ fun _ => true).check Careful
      (machine Bool ⟨{}, id⟩ fun _ => true).start carefully).isSome := by
    decide
  obtain ⟨s, hs⟩ := Option.isSome_iff_exists.mp hcheck
  exact (no_read_of_freed (Machine.run_of_check hs)).1

/-- A pop copies the header, and before its next step another pop takes the entry and its
caller frees it. -/
def useAfterFree : List (Act Bool) :=
  [.act (.call false (.push 16)), .act (.run false .alignment), .act (.run false .region),
    .act (.run false .region), .act (.run false .region), .act (.run false .region),
    .act (.call true .pop), .act (.run true .alignment), .act (.run true .region),
    .act (.call false .pop), .act (.run false .alignment), .act (.run false .region),
    .act (.run false .region), .act (.run false .region), .act (.run false .region),
    .free 16]

theorem read_of_freed : ¬ ∀ (acts : List (Act Bool)) (s : Reclaiming Bool),
    (machine Bool ⟨{}, id⟩ fun _ => true).Run Machine.Any acts s →
      (machine Bool ⟨{}, id⟩ fun _ => true).Each acts fun _ s act => ¬ act.ReadsFreed s := by
  intro h
  have hexec : ((machine Bool ⟨{}, id⟩ fun _ => true).exec
      (machine Bool ⟨{}, id⟩ fun _ => true).start
      (useAfterFree ++ [.act (.run true .region)])).isSome := by
    decide
  have hstale : ((machine Bool ⟨{}, id⟩ fun _ => true).exec
      (machine Bool ⟨{}, id⟩ fun _ => true).start useAfterFree).any
        fun s => s.threads.pc true = .popNext ⟨⟨1, 1⟩, ⟨0, 1⟩⟩ ∧ s.freed 16 = true := by
    decide
  obtain ⟨s', hs'⟩ := Option.isSome_iff_exists.mp hexec
  obtain ⟨s, hs, hpc⟩ := (Option.any_eq_true ..).mp hstale
  obtain ⟨hpc, hfreed⟩ := of_decide_eq_true hpc
  exact h _ s' (Machine.run_of_exec hs') useAfterFree s _ List.prefix_rfl hs ⟨_, hpc, hfreed⟩

end Reclaiming

end CppServer.LockFreeStack
