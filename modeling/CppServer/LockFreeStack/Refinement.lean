import CppServer.LockFreeStack.Invariant

namespace CppServer.LockFreeStack

open Function Base

/-- Where the call of a thread is for the atomic stack. A pop that has read the
region of an empty stack is past its effect. -/
def Pc.status : Pc → Status
  | .idle => .idle
  | .pushRead entry _ _ | .pushLink entry _ | .pushExchange entry _ => .pushing entry
  | .popRead _ (some region) => if entryOf region.next = 0 then .done (.popped none) else .popping
  | .popRead _ none | .popNext _ | .popExchange _ _ => .popping
  | .done result => .done result

/-- The simulation relation: the header and the links hold the abstract stack,
and every thread is where its code is. -/
structure Refines {T : Type} (s : Threads T) (a : Atomic T) : Prop where
  inv : Inv s a.stack
  status : ∀ t, a.status t = (s.pc t).status

variable {T : Type} [DecidableEq T] {s s' : Threads T} {a : Atomic T}

theorem Refines.status_update (hrefines : Refines s a) {t : T} {pc : Pc} {status : Status}
    (hstatus : pc.status = status) (u : T) :
    update a.status t status u = (update s.pc t pc u).status := by
  by_cases hu : u = t
  · rw [hu, update_self, update_self, hstatus]
  · rw [update_of_ne hu, update_of_ne hu, hrefines.status u]

theorem Refines.status_same (hrefines : Refines s a) {t : T} {pc : Pc}
    (hstatus : pc.status = (s.pc t).status) (u : T) : a.status u = (update s.pc t pc u).status := by
  have h := hrefines.status_update hstatus u (t := t)
  rwa [← hrefines.status t, update_eq_self] at h

/-- A step that only moves a thread and keeps its status is silent. -/
theorem Refines.moved (hrefines : Refines s a) {t : T} {pc : Pc}
    (hentry : pc.entry = (s.pc t).entry) (hstatus : pc.status = (s.pc t).status)
    (hlocal : Local s.memory (s.begun t) s.exchanges pc) :
    Refines { s with pc := update s.pc t pc } a :=
  ⟨hrefines.inv.moved hentry hlocal, hrefines.status_same hstatus⟩

/-- The match of a concrete step: silence, or the abstract step that it observes. -/
def Matched (s' : Threads T) (a : Atomic T) : Option (Event T) → Prop
  | none => Refines s' a
  | some event => ∃ a', (Atomic.machine T).step a event = some a' ∧ Refines s' a'

theorem matched_call (hrefines : Refines s a) {t : T} {op : Op}
    (hstep : Threads.step s (.call t op) = some s') : Matched s' a (some (.invoke t op)) := by
  simp only [Threads.step] at hstep
  split at hstep
  case isFalse => cases hstep
  case isTrue hcall =>
    cases hstep
    have hidle : a.status t = .idle := by
      rw [hrefines.status, hcall.1]
      rfl
    refine ⟨_, if_pos hidle, hrefines.inv.called hcall.2, ?_⟩
    apply hrefines.status_update
    cases op <;> rfl

theorem matched_scribble (hrefines : Refines s a) {entry value : Addr}
    (hstep : Threads.step s (.scribble entry value) = some s') : Matched s' a none := by
  simp only [Threads.step] at hstep
  split at hstep
  case isFalse => cases hstep
  case isTrue hheld =>
    cases hstep
    refine ⟨hrefines.inv.wrote (hrefines.inv.not_mem_of_held hheld) ?_ value, hrefines.status⟩
    intro t expected hpc
    have hfalse := (hrefines.inv.owned t entry (by rw [hpc]; rfl)).2.2.1
    rw [hheld] at hfalse
    cases hfalse

/-- Reading the region of an empty stack is where a pop takes effect that will
return null. -/
theorem matched_empty (hrefines : Refines s a) {t : T} {pc : Pc} (hpopping : (s.pc t).status = .popping)
    (hempty : entryOf s.memory.header.region.next = 0) (hentry : pc.entry = (s.pc t).entry)
    (hstatus : pc.status = .done (.popped none))
    (hlocal : Local s.memory (s.begun t) s.exchanges pc) :
    Matched { s with pc := update s.pc t pc } a (some (.commit t)) := by
  have hinv := hrefines.inv
  have hlinked := hinv.holds.linked
  rw [hempty] at hlinked
  have hstack : a.stack = [] := hlinked.eq_nil
  have hstep : (Atomic.machine T).step a (.commit t) =
      some { stack := [], status := update a.status t (.done (.popped none)) } := by
    simp only [Atomic.machine, Atomic.step, hrefines.status t, hpopping, hstack, Atomic.commit]
  refine ⟨_, hstep, ?_, hrefines.status_update hstatus⟩
  rw [hstack] at hinv
  exact hinv.moved hentry hlocal

theorem matched_popRead (hrefines : Refines s a) {t : T} {half : Half} {alignment : Option Alignment}
    {region : Option Region} (hpc : s.pc t = .popRead alignment region)
    (hstep : Threads.step s (.run t half) = some s') :
    Matched s' a (linearize s (.run t half) s') := by
  obtain ⟨m, pc, hcode, rfl⟩ := Threads.step_run hstep
  have hplace := hrefines.inv.place t
  rw [hpc] at hcode hplace
  have hentry : (s.pc t).entry = none := by
    rw [hpc]
    rfl
  simp only [linearize, hpc]
  cases half with
  | alignment =>
    have hnow : ∀ x, some s.memory.header.alignment = some x →
        ∃ count, ReadAt (s.begun t) s.exchanges count x.sequence := by
      rintro x ⟨⟩
      exact ⟨s.exchanges, hrefines.inv.begun t, le_refl _, hrefines.inv.holds.sequence⟩
    cases alignment with
    | some _ => cases hcode
    | none =>
      simp only [reduceCtorEq, false_and, if_false]
      cases region with
      | none =>
        cases hcode
        exact hrefines.moved hentry.symm (by rw [hpc]; rfl) hnow
      | some region =>
        simp only [step, readHalf] at hcode
        split at hcode
        case isTrue hempty =>
          cases hcode
          refine hrefines.moved hentry.symm ?_ trivial
          rw [hpc, Pc.status, Pc.status, if_pos hempty]
        case isFalse hsome =>
          cases hcode
          refine hrefines.moved hentry.symm ?_ ⟨hsome, hnow _ rfl⟩
          rw [hpc, Pc.status, Pc.status, if_neg hsome]
  | region =>
    cases region with
    | some _ => cases alignment <;> cases hcode
    | none =>
      have hpopping : (s.pc t).status = .popping := by
        rw [hpc]
        rfl
      by_cases hempty : entryOf s.memory.header.region.next = 0
      · simp only [hempty, and_self, if_true]
        cases alignment with
        | none =>
          cases hcode
          exact matched_empty hrefines hpopping hempty hentry.symm (if_pos hempty) hplace
        | some alignment =>
          simp only [step, readHalf, if_pos hempty] at hcode
          cases hcode
          exact matched_empty hrefines hpopping hempty hentry.symm rfl trivial
      · simp only [hempty, and_false, if_false]
        cases alignment with
        | none =>
          cases hcode
          exact hrefines.moved hentry.symm (hpopping ▸ if_neg hempty) hplace
        | some alignment =>
          simp only [step, readHalf, if_neg hempty] at hcode
          cases hcode
          exact hrefines.moved hentry.symm hpopping.symm ⟨hempty, hplace alignment rfl⟩

theorem matched_pushRead (hrefines : Refines s a) {t : T} {half : Half} {entry : Addr}
    {alignment : Option Alignment} {region : Option Region}
    (hpc : s.pc t = .pushRead entry alignment region)
    (hstep : Threads.step s (.run t half) = some s') :
    Matched s' a (linearize s (.run t half) s') := by
  obtain ⟨m, pc, hcode, rfl⟩ := Threads.step_run hstep
  rw [hpc] at hcode
  have hsilent : m = s.memory ∧ pc.entry = (s.pc t).entry ∧ pc.status = (s.pc t).status ∧
      (∀ begun exchanges, Local s.memory begun exchanges pc) := by
    rw [hpc]
    cases half <;> cases alignment <;> cases region <;> cases hcode <;>
      exact ⟨rfl, rfl, rfl, fun _ _ => trivial⟩
  obtain ⟨rfl, hentry, hstatus, hlocal⟩ := hsilent
  simp only [linearize, hpc]
  exact hrefines.moved hentry hstatus (hlocal _ _)

theorem matched_pushLink (hrefines : Refines s a) {t : T} {half : Half} {entry : Addr}
    {expected : SListHeader} (hpc : s.pc t = .pushLink entry expected)
    (hstep : Threads.step s (.run t half) = some s') :
    Matched s' a (linearize s (.run t half) s') := by
  obtain ⟨m, pc, hcode, rfl⟩ := Threads.step_run hstep
  rw [hpc] at hcode
  cases hcode
  have hentry : (s.pc t).entry = some entry := by
    rw [hpc]
    rfl
  have hfree (u : T) (expected : SListHeader) : s.pc u ≠ .pushExchange entry expected := by
    intro hu
    have heq := hrefines.inv.apart u t entry (by rw [hu]; rfl) hentry
    rw [heq, hpc] at hu
    cases hu
  have hwrote := hrefines.inv.wrote (hrefines.inv.owned t entry hentry).2.2.2 hfree
    (entryOf expected.region.next)
  simp only [linearize, hpc]
  refine ⟨hwrote.moved hentry.symm (update_self _ _ _), hrefines.status_same ?_⟩
  rw [hpc]
  rfl

theorem matched_pushExchange (hrefines : Refines s a) {t : T} {half : Half} {entry : Addr}
    {expected : SListHeader} (hpc : s.pc t = .pushExchange entry expected)
    (hstep : Threads.step s (.run t half) = some s') :
    Matched s' a (linearize s (.run t half) s') := by
  obtain ⟨m, pc, hcode, rfl⟩ := Threads.step_run hstep
  rw [hpc] at hcode
  simp only [LockFreeStack.step] at hcode
  split at hcode
  case isTrue hequal =>
    cases hcode
    subst hequal
    simp only [linearize, hpc, update_self]
    have hpushing : a.status t = .pushing entry := by
      rw [hrefines.status, hpc]
      rfl
    refine ⟨⟨entry :: a.stack, update a.status t (.done .pushed)⟩, ?_, ?_⟩
    · simp only [Atomic.machine, Atomic.step, hpushing, Atomic.commit]
    · exact ⟨hrefines.inv.pushed hpc, hrefines.status_update rfl⟩
  case isFalse =>
    cases hcode
    simp only [linearize, hpc, update_self]
    exact hrefines.moved (by rw [hpc]; rfl) (by rw [hpc]; rfl) trivial

theorem matched_popNext (hrefines : Refines s a) {t : T} {half : Half} {expected : SListHeader}
    (hpc : s.pc t = .popNext expected) (hstep : Threads.step s (.run t half) = some s') :
    Matched s' a (linearize s (.run t half) s') := by
  obtain ⟨m, pc, hcode, rfl⟩ := Threads.step_run hstep
  have hplace := hrefines.inv.place t
  rw [hpc] at hcode hplace
  cases hcode
  obtain ⟨hsome, count, hread⟩ := hplace
  simp only [linearize, hpc]
  exact hrefines.moved (by rw [hpc]; rfl) (by rw [hpc]; rfl)
    ⟨hsome, count, hread, fun _ _ => rfl⟩

/-- A pop that is about to exchange has the link that its entry has now. -/
def Pc.LinkKept (m : Memory) : Pc → Prop
  | .popExchange expected next => m.header = expected → next = m.next (entryOf expected.region.next)
  | .idle | .pushRead _ _ _ | .pushLink _ _ | .pushExchange _ _ | .popRead _ _ | .popNext _
  | .done _ => True

omit [DecidableEq T] in
def Threads.LinkKept (s : Threads T) : Act T → Prop
  | .run t _ => (s.pc t).LinkKept s.memory
  | .call _ _ | .scribble _ _ => True

/-- Within 2^48 exchanges no link is lost. -/
theorem Refines.linkKept (hrefines : Refines s a) {act : Act T} (hwithin : s'.WithinSequence)
    (hstep : Threads.step s act = some s') : s.LinkKept act := by
  cases act with
  | call | scribble => trivial
  | run t half =>
    simp only [Threads.LinkKept]
    cases hpc : s.pc t with
    | popExchange expected next =>
      rintro rfl
      obtain ⟨m, pc, hcode, rfl⟩ := Threads.step_run hstep
      rw [hpc] at hcode
      simp only [LockFreeStack.step, if_true] at hcode
      cases hcode
      have hfew := hwithin t (by simp only [update_self]; exact Pc.noConfusion)
      simp only [hpc, Pc.exchanged] at hfew
      exact hrefines.inv.link_eq hpc (by omega)
    | _ => trivial

theorem matched_popExchange (hrefines : Refines s a) {t : T} {half : Half} {expected : SListHeader}
    {next : Addr} (hpc : s.pc t = .popExchange expected next) (hlink : s.LinkKept (.run t half))
    (hstep : Threads.step s (.run t half) = some s') :
    Matched s' a (linearize s (.run t half) s') := by
  obtain ⟨m, pc, hcode, rfl⟩ := Threads.step_run hstep
  rw [hpc] at hcode
  simp only [LockFreeStack.step] at hcode
  split at hcode
  case isTrue hequal =>
    cases hcode
    subst hequal
    simp only [Threads.LinkKept, hpc] at hlink
    obtain ⟨rest, hstack, hinv⟩ := hrefines.inv.popped hpc (hlink rfl)
    have hpopping : a.status t = .popping := by
      rw [hrefines.status, hpc]
      rfl
    simp only [linearize, hpc, update_self]
    refine ⟨⟨rest, update a.status t (.done (.popped _))⟩, ?_, hinv, hrefines.status_update rfl⟩
    simp only [Atomic.machine, Atomic.step, hpopping, hstack, Atomic.commit]
  case isFalse =>
    cases hcode
    have hlocal : Local s.memory (s.begun t) s.exchanges (.popRead none none) := by
      intro x hx
      cases hx
    simp only [linearize, hpc, update_self]
    exact hrefines.moved (by rw [hpc]; rfl) (by rw [hpc]; rfl) hlocal

theorem matched_done (hrefines : Refines s a) {t : T} {half : Half} {result : Result}
    (hpc : s.pc t = .done result) (hstep : Threads.step s (.run t half) = some s') :
    Matched s' a (linearize s (.run t half) s') := by
  obtain ⟨m, pc, hcode, rfl⟩ := Threads.step_run hstep
  rw [hpc] at hcode
  cases hcode
  have hdone : a.status t = .done result := by
    rw [hrefines.status, hpc]
    rfl
  have hexchanged : (s.pc t).exchanged .idle = 0 := by
    rw [hpc]
    rfl
  simp only [linearize, hpc]
  rw [← hpc, hexchanged]
  refine ⟨{ a with status := update a.status t .idle }, if_pos hdone, ?_⟩
  exact ⟨hrefines.inv.returned hpc, hrefines.status_update rfl⟩

/-- Every step is silent or a step of the atomic stack. -/
theorem matched_step {act : Act T} (hrefines : Refines s a) (hlink : s.LinkKept act)
    (hstep : Threads.step s act = some s') : Matched s' a (linearize s act s') := by
  cases act with
  | call t op => exact matched_call hrefines hstep
  | scribble entry value => exact matched_scribble hrefines hstep
  | run t half =>
    cases hpc : s.pc t with
    | idle =>
      obtain ⟨m, pc, hcode, _⟩ := Threads.step_run hstep
      rw [hpc] at hcode
      cases hcode
    | pushRead entry alignment region => exact matched_pushRead hrefines hpc hstep
    | pushLink entry expected => exact matched_pushLink hrefines hpc hstep
    | pushExchange entry expected => exact matched_pushExchange hrefines hpc hstep
    | popRead alignment region => exact matched_popRead hrefines hpc hstep
    | popNext expected => exact matched_popNext hrefines hpc hstep
    | popExchange expected next => exact matched_popExchange hrefines hpc hlink hstep
    | done result => exact matched_done hrefines hpc hstep

theorem simulation (memory : Memory) (held : Addr → Bool) :
    Machine.Simulation (Threads.machine T memory held) (Atomic.machine T)
      (fun _ _ s' => s'.WithinSequence) linearize Refines where
  start := ⟨inv_start memory held, fun _ => rfl⟩
  step s act s' a hrefines hwithin hstep := by
    have hmatched := matched_step hrefines (hrefines.linkKept hwithin hstep) hstep
    cases hevent : linearize s act s' with
    | none =>
      rw [hevent] at hmatched
      exact hmatched
    | some event =>
      rw [hevent] at hmatched
      exact hmatched

/-- The tagged lock-free stack refines the atomic stack. In the state that an
interleaving reaches, the links from the header lead through exactly the
abstract stack, whose entries are different and in nobody's hands, and the depth
is its length modulo 2^16. -/
theorem refines_atomic {memory : Memory} {held : Addr → Bool} {acts : List (Act T)} {s : Threads T}
    (hrun : (Threads.machine T memory held).Run (fun _ _ s' => s'.WithinSequence) acts s) :
    ∃ a, (Atomic.machine T).Run Machine.Any
        ((Threads.machine T memory held).trace linearize
          (Threads.machine T memory held).start acts) a ∧
      (∀ t, a.status t = (s.pc t).status) ∧
      Linked 0 s.memory.next (entryOf s.memory.header.region.next) a.stack ∧
      a.stack.Nodup ∧ (∀ entry ∈ a.stack, s.held entry = false ∧ ∀ t, (s.pc t).entry ≠ some entry) ∧
      s.memory.header.alignment.depth.toNat = a.stack.length % 2 ^ 16 := by
  obtain ⟨a, hatomic, hrefines⟩ := (simulation memory held).run hrun
  obtain ⟨hholds, hfree, _, howned, _, _⟩ := hrefines.inv
  refine ⟨a, hatomic, hrefines.status, hholds.linked, hholds.nodup, fun entry hmem => ?_, ?_⟩
  · exact ⟨hfree entry hmem, fun t hentry => (howned t entry hentry).2.2.2 hmem⟩
  · rw [hholds.depth, BitVec.toNat_ofNat]

instance [Fintype T] (s : Threads T) : Decidable s.WithinSequence :=
  inferInstanceAs (Decidable (∀ _, _))

/-- Two pushes race, the second has to exchange twice, and a pop takes its entry. -/
def race : List (Act (Fin 2)) :=
  [.call 0 (.push 16), .run 0 .alignment, .run 0 .region, .run 0 .region,
    .call 1 (.push 32), .run 1 .region, .run 1 .alignment, .run 1 .region,
    .run 0 .region, .run 1 .region,
    .run 1 .alignment, .run 1 .region, .run 1 .region, .run 1 .region, .run 1 .region, .run 0 .region,
    .call 0 .pop, .run 0 .region, .run 0 .alignment, .run 0 .region, .run 0 .region, .run 0 .region]

theorem refines_atomic_race : ∃ s a,
    (Threads.machine (Fin 2) ⟨{}, id⟩ fun _ => true).exec
      (Threads.machine (Fin 2) ⟨{}, id⟩ fun _ => true).start race = some s ∧
    (Atomic.machine (Fin 2)).Run Machine.Any
      [.invoke 0 (.push 16), .invoke 1 (.push 32), .commit 0, .commit 1, .ret 1 .pushed,
        .ret 0 .pushed, .invoke 0 .pop, .commit 0, .ret 0 (.popped (some 32))] a ∧
    Linked 0 s.memory.next (entryOf s.memory.header.region.next) a.stack := by
  have hcheck : ((Threads.machine (Fin 2) ⟨{}, id⟩ fun _ => true).check
      (fun _ _ s' => s'.WithinSequence)
      (Threads.machine (Fin 2) ⟨{}, id⟩ fun _ => true).start race).isSome := by
    decide
  obtain ⟨s, hs⟩ := Option.isSome_iff_exists.mp hcheck
  have hrun := Machine.run_of_check hs
  obtain ⟨a, hatomic, _, hlinked, _⟩ := refines_atomic hrun
  have htrace : (Threads.machine (Fin 2) ⟨{}, id⟩ fun _ => true).trace linearize
      (Threads.machine (Fin 2) ⟨{}, id⟩ fun _ => true).start race =
      [.invoke 0 (.push 16), .invoke 1 (.push 32), .commit 0, .commit 1, .ret 1 .pushed,
        .ret 0 .pushed, .invoke 0 .pop, .commit 0, .ret 0 (.popped (some 32))] := by
    decide
  rw [htrace] at hatomic
  exact ⟨s, a, hrun.exec_eq, hatomic, hlinked⟩

end CppServer.LockFreeStack
