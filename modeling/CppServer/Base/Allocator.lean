import CppServer.Base.Objects

namespace Base

open Function

/-- What a step of an allocator means to its callers. -/
inductive Effect (H : Type)
  | silent
  | create (h : H)
  | destroy (h : H)
  | write (h : H) (offset : ℕ)
deriving DecidableEq, Repr

/-- How the effect changes the objects that callers have. -/
def Effect.Changes {H : Type} (size : H → ℕ) (live live' : List H) : Effect H → Prop
  | .silent => ∀ h, h ∈ live' ↔ h ∈ live
  | .create h => h ∉ live ∧ ∀ h', h' ∈ live' ↔ h' = h ∨ h' ∈ live
  | .destroy h => h ∈ live ∧ ∀ h', h' ∈ live' ↔ h' ≠ h ∧ h' ∈ live
  | .write h offset => h ∈ live ∧ offset < size h ∧ ∀ h', h' ∈ live' ↔ h' ∈ live

/-- The addresses that a step with the effect stores to: the one that the caller writes, or any of the
scratch. -/
def Effect.Stores {H A : Type} (place : H → ℕ → A) (Scratch : A → Prop) : Effect H → List A → Prop
  | .write h offset, addresses => addresses = [place h offset]
  | _, addresses => ∀ x ∈ addresses, Scratch x

instance {H A : Type} [DecidableEq A] (place : H → ℕ → A) (Scratch : A → Prop) [DecidablePred Scratch] :
    (e : Effect H) → (addresses : List A) → Decidable (e.Stores place Scratch addresses)
  | .write _ _, _ => inferInstanceAs (Decidable (_ = _))
  | .silent, _ | .create _, _ | .destroy _, _ => inferInstanceAs (Decidable (∀ x ∈ _, _))

/-- An allocator: the objects that its callers have in each state, at which address each offset of
an object lies, what a step means to the callers, and the addresses that a step may overwrite for
the allocator's own ends. -/
structure Allocator (σ α H A : Type) where
  machine : Machine σ α
  live : σ → List H
  size : H → ℕ
  place : H → ℕ → A
  effect : σ → α → Effect H
  Scratch : σ → α → A → Prop
  decidableScratch : ∀ s a x, Decidable (Scratch s a x)

namespace Allocator

variable {σ α H A V : Type} {M : Allocator σ α H A}

instance (s : σ) (a : α) : DecidablePred (M.Scratch s a) := M.decidableScratch s a

/-- A label over a memory: one of the allocator's, with what it stores, or a read by a caller. -/
inductive Act (α H A V : Type)
  | act (a : α) (stores : List (A × V))
  | read (h : H) (offset : ℕ) (v : V)
deriving DecidableEq

/-- What is to be shown of an allocator with an invariant of its states. -/
structure Sound (M : Allocator σ α H A) (I : σ → Prop) : Prop where
  start : I M.machine.start
  empty : M.live M.machine.start = []
  keep : ∀ s a s', I s → M.machine.step s a = some s' → I s'
  changes : ∀ s a s', I s → M.machine.step s a = some s' →
    (M.effect s a).Changes M.size (M.live s) (M.live s')
  apart : ∀ s, I s → ∀ h ∈ M.live s, ∀ h' ∈ M.live s, ∀ i, i < M.size h → ∀ j, j < M.size h' →
    M.place h i = M.place h' j → h = h' ∧ i = j
  scratch : ∀ s a s' x, I s → M.machine.step s a = some s' → M.Scratch s a x →
    ∀ h ∈ M.live s, h ∈ M.live s' → ∀ i, i < M.size h → x ≠ M.place h i

/-- The objects that exist are those that callers have, and hold what was written to them. -/
structure Implements (M : Allocator σ α H A) (I : σ → Prop) (s : σ × (A → V)) (o : Objects H V) :
    Prop where
  inv : I s.1
  live : ∀ h, (o h).isSome ↔ h ∈ M.live s.1
  laid : Objects.LaidOut M.place M.size o s.2

variable {I : σ → Prop} {s s' : σ × (A → V)} {o : Objects H V}

theorem Implements.exists_contents (himpl : M.Implements I s o) {h : H} (hlive : h ∈ M.live s.1) :
    ∃ contents, o h = some contents :=
  Option.isSome_iff_exists.mp ((himpl.live h).mpr hlive)

theorem Implements.live_of_eq (himpl : M.Implements I s o) {h : H} {contents : ℕ → Option V}
    (hsome : o h = some contents) : h ∈ M.live s.1 :=
  (himpl.live h).mp (by rw [hsome]; rfl)

/-- Stores to the scratch leave the objects that stay as they were. -/
theorem Sound.laid_scratch [DecidableEq A] (hsound : M.Sound I) {s s' : σ} {memory : A → V} {a : α}
    {stores : List (A × V)} (hinv : I s) (hstep : M.machine.step s a = some s')
    (hstores : ∀ x ∈ stores.map Prod.fst, M.Scratch s a x)
    (hlaid : Objects.LaidOut M.place M.size o memory)
    (hstay : ∀ h, (o h).isSome → h ∈ M.live s ∧ h ∈ M.live s') :
    Objects.LaidOut M.place M.size o (storeAll memory stores) := by
  apply hlaid.congr
  intro h contents hsome i hi
  apply storeAll_of_not_mem
  intro hmem
  obtain ⟨hlive, hlive'⟩ := hstay h (by rw [hsome]; rfl)
  exact hsound.scratch s a s' _ hinv hstep (hstores _ hmem) h hlive hlive' i hi rfl

section Stored

variable [DecidableEq H] [DecidableEq A] [DecidableEq V]

def storedStep (M : Allocator σ α H A) (s : σ × (A → V)) : Act α H A V → Option (σ × (A → V))
  | .act a stores =>
    if (M.effect s.1 a).Stores M.place (M.Scratch s.1 a) (stores.map Prod.fst) then
      (M.machine.step s.1 a).map fun next => (next, storeAll s.2 stores)
    else none
  | .read h offset v =>
    if h ∈ M.live s.1 ∧ offset < M.size h ∧ s.2 (M.place h offset) = v then some s else none

/-- The allocator with the memory that it hands out, which holds anything at first. -/
def stored (M : Allocator σ α H A) (memory : A → V) : Machine (σ × (A → V)) (Act α H A V) where
  start := (M.machine.start, memory)
  step := M.storedStep

/-- What the callers see of a step. -/
def observe (M : Allocator σ α H A) (s : σ × (A → V)) :
    Act α H A V → σ × (A → V) → Option (Access H V)
  | .act a stores, _ =>
    match M.effect s.1 a with
    | .silent => none
    | .create h => some (.create h)
    | .destroy h => some (.destroy h)
    | .write h offset => stores.head?.map fun store => .write h offset store.2
  | .read h offset v, _ => some (.read h offset v)

/-- What the callers see of a run. -/
def seen (M : Allocator σ α H A) (memory : A → V) (as : List (Act α H A V)) : List (Access H V) :=
  (M.stored memory).trace M.observe (M.stored memory).start as

theorem storedStep_act {a : α} {stores : List (A × V)} (hstep : M.storedStep s (.act a stores) = some s') :
    (M.effect s.1 a).Stores M.place (M.Scratch s.1 a) (stores.map Prod.fst) ∧
      M.machine.step s.1 a = some s'.1 ∧ s'.2 = storeAll s.2 stores := by
  simp only [storedStep] at hstep
  split at hstep
  case isTrue hstores =>
    obtain ⟨next, hnext, rfl⟩ := Option.map_eq_some_iff.mp hstep
    exact ⟨hstores, hnext, rfl⟩
  case isFalse => cases hstep

theorem storedStep_read {h : H} {offset : ℕ} {v : V} (hstep : M.storedStep s (.read h offset v) = some s') :
    h ∈ M.live s.1 ∧ offset < M.size h ∧ s.2 (M.place h offset) = v ∧ s' = s := by
  simp only [storedStep] at hstep
  split at hstep
  case isTrue hok =>
    cases hstep
    exact ⟨hok.1, hok.2.1, hok.2.2, rfl⟩
  case isFalse => cases hstep

/-- The step lemma: a step of the allocator is the access that the callers see, or none. -/
theorem Implements.act (hsound : M.Sound I) (himpl : M.Implements I s o) {a : α}
    {stores : List (A × V)} (hstep : M.storedStep s (.act a stores) = some s') :
    match M.observe s (.act a stores) s' with
    | none => M.Implements I s' o
    | some access => ∃ o', Objects.step M.size o access = some o' ∧ M.Implements I s' o' := by
  obtain ⟨hstores, hnext, hmemory⟩ := storedStep_act hstep
  have hinv := hsound.keep _ _ _ himpl.inv hnext
  have hchanges := hsound.changes _ _ _ himpl.inv hnext
  cases heffect : M.effect s.1 a with
  | silent =>
    simp only [heffect, Effect.Stores] at hstores
    simp only [heffect, Effect.Changes] at hchanges
    simp only [observe, heffect]
    refine ⟨hinv, fun h => (himpl.live h).trans (hchanges h).symm, ?_⟩
    rw [hmemory]
    apply hsound.laid_scratch himpl.inv hnext hstores himpl.laid
    exact fun h hsome => ⟨(himpl.live h).mp hsome, (hchanges h).mpr ((himpl.live h).mp hsome)⟩
  | create h =>
    simp only [heffect, Effect.Stores] at hstores
    simp only [heffect, Effect.Changes] at hchanges
    have hnone : o h = none := by
      rw [← Option.not_isSome_iff_eq_none, himpl.live]
      exact hchanges.1
    simp only [observe, heffect]
    refine ⟨_, Objects.step_create hnone, hinv, fun h' => ?_, ?_⟩
    · rw [hchanges.2 h']
      by_cases hh : h' = h
      · simp [hh]
      · simp [hh, himpl.live h']
    · rw [hmemory]
      apply (hsound.laid_scratch himpl.inv hnext hstores himpl.laid fun h' hsome => ?_).create h
      have hlive := (himpl.live h').mp hsome
      exact ⟨hlive, (hchanges.2 h').mpr (.inr hlive)⟩
  | destroy h =>
    simp only [heffect, Effect.Stores] at hstores
    simp only [heffect, Effect.Changes] at hchanges
    obtain ⟨contents, hsome⟩ := himpl.exists_contents hchanges.1
    simp only [observe, heffect]
    refine ⟨_, Objects.step_destroy hsome, hinv, fun h' => ?_, ?_⟩
    · rw [hchanges.2 h']
      by_cases hh : h' = h
      · simp [hh]
      · simp [hh, himpl.live h']
    · rw [hmemory]
      apply hsound.laid_scratch himpl.inv hnext hstores (himpl.laid.destroy h)
      intro h' hsome
      by_cases hh : h' = h
      · simp [hh] at hsome
      · rw [update_of_ne hh, himpl.live] at hsome
        exact ⟨hsome, (hchanges.2 h').mpr ⟨hh, hsome⟩⟩
  | write h offset =>
    simp only [heffect, Effect.Stores] at hstores
    simp only [heffect, Effect.Changes] at hchanges
    obtain ⟨hlive, hoffset, hsame⟩ := hchanges
    obtain ⟨⟨x, v⟩, rfl, rfl⟩ := List.map_eq_singleton_iff.mp hstores
    obtain ⟨contents, hsome⟩ := himpl.exists_contents hlive
    simp only [observe, heffect, List.head?_cons, Option.map_some]
    refine ⟨_, Objects.step_write hsome hoffset, hinv, fun h' => ?_, ?_⟩
    · rw [hsame h']
      by_cases hh : h' = h
      · simp [hh, hlive]
      · simp [hh, himpl.live h']
    · rw [hmemory]
      apply himpl.laid.write hsome hoffset
      · intro i hi hne heq
        exact hne (hsound.apart _ himpl.inv h hlive h hlive i hi offset hoffset heq).2
      · intro h' contents' hsome' hne i hi heq
        exact hne (hsound.apart _ himpl.inv h' (himpl.live_of_eq hsome') h hlive i hi offset hoffset heq).1

theorem Implements.read (himpl : M.Implements I s o) {h : H} {offset : ℕ} {v : V}
    (hstep : M.storedStep s (.read h offset v) = some s') :
    Objects.step M.size o (.read h offset v) = some o ∧ M.Implements I s' o := by
  obtain ⟨hlive, hoffset, hv, rfl⟩ := storedStep_read hstep
  obtain ⟨contents, hsome⟩ := himpl.exists_contents hlive
  refine ⟨Objects.step_read hsome hoffset fun w hw => ?_, himpl⟩
  exact (himpl.laid h contents hsome offset w hw).2.symm.trans hv

/-- A sound allocator over any memory simulates a store of independent objects. -/
theorem Sound.simulation (hsound : M.Sound I) (memory : A → V) :
    Machine.Simulation (M.stored memory) (Objects.machine M.size) Machine.Any M.observe
      (M.Implements I) where
  start := by
    refine ⟨hsound.start, fun h => ?_, fun _ _ hsome => nomatch hsome⟩
    simp [stored, Objects.machine, hsound.empty]
  step := by
    intro s a s' o himpl _ hstep
    cases a with
    | act a stores =>
      have hmatch := himpl.act hsound hstep
      cases hobs : M.observe s (.act a stores) s' with
      | none =>
        rw [hobs] at hmatch
        exact hmatch
      | some access =>
        rw [hobs] at hmatch
        exact hmatch
    | read h offset v => exact ⟨o, himpl.read hstep⟩

theorem Sound.run (hsound : M.Sound I) {memory : A → V} {as : List (Act α H A V)}
    (hrun : (M.stored memory).Run Machine.Any as s) :
    ∃ o, (Objects.machine M.size).Run Machine.Any (M.seen memory as) o ∧
      ∀ h, (o h).isSome ↔ h ∈ M.live s.1 := by
  obtain ⟨o, habstract, himpl⟩ := (hsound.simulation memory).run hrun
  exact ⟨o, habstract, himpl.live⟩

/-- A read returns what was last written, whatever the allocator and the other callers do in
between. -/
theorem Sound.read_of_write (hsound : M.Sound I) {memory : A → V} {as : List (Act α H A V)}
    (hrun : (M.stored memory).Run Machine.Any as s) {before between : List (Access H V)} {h : H}
    {offset : ℕ} {v w : V}
    (hseen : M.seen memory as = before ++ .write h offset v :: between ++ [.read h offset w])
    (hwrite : ∀ x, .write h offset x ∉ between) (hdestroy : .destroy h ∉ between) : w = v := by
  obtain ⟨o, habstract, -⟩ := hsound.run hrun
  have hexec := habstract.exec_eq
  rw [hseen] at hexec
  exact Objects.read_of_write hexec hwrite hdestroy

end Stored

end Allocator

end Base
