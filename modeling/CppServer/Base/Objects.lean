import CppServer.Base.Machine

namespace Base

open Function

/-- An access to a store of objects; a read comes with the value that it returns. -/
inductive Access (H V : Type)
  | create (h : H)
  | destroy (h : H)
  | write (h : H) (offset : ℕ) (v : V)
  | read (h : H) (offset : ℕ) (v : V)
deriving DecidableEq, Repr

/-- The objects that exist, each with what has been written to it since it was created. -/
abbrev Objects (H V : Type) : Type := H → Option (ℕ → Option V)

namespace Objects

variable {H V : Type}

section Machine

variable [DecidableEq H] [DecidableEq V]

/-- An object has the offsets below its size. What was never written may read as anything. -/
def step (size : H → ℕ) (o : Objects H V) : Access H V → Option (Objects H V)
  | .create h =>
    match o h with
    | none => some (update o h (some fun _ => none))
    | some _ => none
  | .destroy h =>
    match o h with
    | none => none
    | some _ => some (update o h none)
  | .write h offset v =>
    match o h with
    | none => none
    | some contents =>
      if offset < size h then some (update o h (some (update contents offset (some v)))) else none
  | .read h offset v =>
    match o h with
    | none => none
    | some contents => if offset < size h ∧ ∀ w ∈ contents offset, w = v then some o else none

/-- A store of independent objects, none at first. -/
def machine (size : H → ℕ) : Machine (Objects H V) (Access H V) where
  start := fun _ => none
  step := step size

variable {size : H → ℕ} {o o' : Objects H V} {h : H} {offset : ℕ} {v : V}

theorem step_create (hnone : o h = none) :
    step size o (.create h) = some (update o h (some fun _ => none)) := by
  simp only [step, hnone]

theorem step_destroy {contents : ℕ → Option V} (hsome : o h = some contents) :
    step size o (.destroy h) = some (update o h none) := by
  simp only [step, hsome]

theorem step_write {contents : ℕ → Option V} (hsome : o h = some contents) (hoffset : offset < size h) :
    step size o (.write h offset v) = some (update o h (some (update contents offset (some v)))) := by
  simp only [step, hsome, if_pos hoffset]

theorem step_read {contents : ℕ → Option V} (hsome : o h = some contents) (hoffset : offset < size h)
    (hv : ∀ w ∈ contents offset, w = v) : step size o (.read h offset v) = some o := by
  simp only [step, hsome, if_pos (And.intro hoffset hv)]

/-- What the object holds at the offset, if it exists and was written there. -/
def last (o : Objects H V) (h : H) (offset : ℕ) : Option V := (o h).bind fun contents => contents offset

/-- An access leaves the offset as it was, apart from a write there and the object's end. -/
theorem last_step {a : Access H V} (hstep : step size o a = some o') (hlast : o.last h offset = some v)
    (hwrite : ∀ w, a ≠ .write h offset w) (hdestroy : a ≠ .destroy h) :
    o'.last h offset = some v := by
  obtain ⟨contents, hsome, hcontents⟩ := Option.bind_eq_some_iff.mp hlast
  -- an update of another object does not show here
  have hframe {h' : H} (x : Option (ℕ → Option V)) (hne : h ≠ h') :
      last (update o h' x) h offset = some v := by
    simp only [last, update_of_ne hne, hsome, Option.bind_some, hcontents]
  cases a with
  | create h' =>
    simp only [step] at hstep
    split at hstep
    case h_1 hnone =>
      cases hstep
      refine hframe _ ?_
      rintro rfl
      rw [hsome] at hnone
      cases hnone
    case h_2 => cases hstep
  | destroy h' =>
    simp only [step] at hstep
    split at hstep
    case h_1 => cases hstep
    case h_2 =>
      cases hstep
      exact hframe _ fun heq => hdestroy (congrArg _ heq.symm)
  | write h' offset' w =>
    simp only [step] at hstep
    split at hstep
    case h_1 => cases hstep
    case h_2 contents' hsome' =>
      split at hstep
      case isFalse => cases hstep
      case isTrue =>
        cases hstep
        by_cases hh : h = h'
        · subst hh
          rw [hsome] at hsome'
          cases hsome'
          have hne : offset ≠ offset' := by
            rintro rfl
            exact hwrite w rfl
          simp only [last, update_self, Option.bind_some, update_of_ne hne, hcontents]
        · exact hframe _ hh
  | read h' offset' w =>
    simp only [step] at hstep
    split at hstep
    case h_1 => cases hstep
    case h_2 =>
      split at hstep
      case isTrue =>
        cases hstep
        exact hlast
      case isFalse => cases hstep

theorem last_exec {as : List (Access H V)} (hexec : (machine size).exec o as = some o')
    (hlast : o.last h offset = some v) (hwrite : ∀ w, .write h offset w ∉ as)
    (hdestroy : .destroy h ∉ as) : o'.last h offset = some v := by
  induction as generalizing o with
  | nil =>
    cases hexec
    exact hlast
  | cons a as ih =>
    obtain ⟨next, hstep, hexec⟩ := Option.bind_eq_some_iff.mp hexec
    have hnext := last_step hstep hlast (fun w heq => hwrite w (heq ▸ List.mem_cons_self))
      fun heq => hdestroy (heq ▸ List.mem_cons_self)
    exact ih hexec hnext (fun w hmem => hwrite w (List.mem_cons_of_mem a hmem))
      fun hmem => hdestroy (List.mem_cons_of_mem a hmem)

/-- A read returns what was last written, whatever happens to other objects and at other offsets
in between. -/
theorem read_of_write {as bs : List (Access H V)} {w : V}
    (hexec : (machine size).exec o (as ++ .write h offset v :: bs ++ [.read h offset w]) = some o')
    (hwrite : ∀ x, .write h offset x ∉ bs) (hdestroy : .destroy h ∉ bs) : w = v := by
  rw [Machine.exec_append, Machine.exec_append] at hexec
  obtain ⟨later, hexec, hread⟩ := Option.bind_eq_some_iff.mp hexec
  obtain ⟨before, -, hexec⟩ := Option.bind_eq_some_iff.mp hexec
  obtain ⟨after, hstep, hexec⟩ := Option.bind_eq_some_iff.mp hexec
  have hafter : after.last h offset = some v := by
    simp only [machine, step] at hstep
    split at hstep
    case h_1 => cases hstep
    case h_2 =>
      split at hstep
      case isTrue =>
        cases hstep
        simp only [last, update_self, Option.bind_some]
      case isFalse => cases hstep
  obtain ⟨contents, hsome, hcontents⟩ :=
    Option.bind_eq_some_iff.mp (last_exec hexec hafter hwrite hdestroy)
  rw [Machine.exec_singleton] at hread
  simp only [machine, step, hsome] at hread
  split at hread
  case isTrue hv => exact (hv.2 v hcontents).symm
  case isFalse => cases hread

end Machine

variable {A : Type}

/-- The objects laid out in one memory: offset `i` of `h` is at the address `place h i`. -/
def LaidOut (place : H → ℕ → A) (size : H → ℕ) (o : Objects H V) (memory : A → V) : Prop :=
  ∀ h contents, o h = some contents →
    ∀ i v, contents i = some v → i < size h ∧ memory (place h i) = v

variable {place : H → ℕ → A} {size : H → ℕ} {o : Objects H V} {memory memory' : A → V}

/-- What lies elsewhere may change. -/
theorem LaidOut.congr (hlaid : LaidOut place size o memory)
    (hsame : ∀ h contents, o h = some contents → ∀ i, i < size h →
      memory' (place h i) = memory (place h i)) : LaidOut place size o memory' := by
  intro h contents hsome i v hv
  obtain ⟨hi, hmemory⟩ := hlaid h contents hsome i v hv
  exact ⟨hi, (hsame h contents hsome i hi).trans hmemory⟩

variable [DecidableEq H]

theorem LaidOut.create (hlaid : LaidOut place size o memory) (h : H) :
    LaidOut place size (update o h (some fun _ => none)) memory := by
  intro h' contents hsome
  by_cases hh : h' = h
  · rw [hh, update_self] at hsome
    cases hsome
    exact fun _ _ hv => nomatch hv
  · rw [update_of_ne hh] at hsome
    exact hlaid h' contents hsome

theorem LaidOut.destroy (hlaid : LaidOut place size o memory) (h : H) :
    LaidOut place size (update o h none) memory := by
  intro h' contents hsome
  by_cases hh : h' = h
  · rw [hh, update_self] at hsome
    cases hsome
  · rw [update_of_ne hh] at hsome
    exact hlaid h' contents hsome

/-- A write to one address, where no other object and no other offset lies. -/
theorem LaidOut.write [DecidableEq A] (hlaid : LaidOut place size o memory) {h : H}
    {contents : ℕ → Option V} {i : ℕ} (hsome : o h = some contents) (hi : i < size h)
    (hself : ∀ j, j < size h → j ≠ i → place h j ≠ place h i)
    (hother : ∀ h' contents', o h' = some contents' → h' ≠ h →
      ∀ j, j < size h' → place h' j ≠ place h i) (v : V) :
    LaidOut place size (update o h (some (update contents i (some v)))) (update memory (place h i) v) := by
  intro h' contents' hsome' j w hw
  by_cases hh : h' = h
  · subst hh
    rw [update_self] at hsome'
    cases hsome'
    by_cases hj : j = i
    · subst hj
      rw [update_self] at hw
      cases hw
      exact ⟨hi, update_self ..⟩
    · rw [update_of_ne hj] at hw
      obtain ⟨hlt, hmemory⟩ := hlaid h' contents hsome j w hw
      exact ⟨hlt, by rw [update_of_ne (hself j hlt hj), hmemory]⟩
  · rw [update_of_ne hh] at hsome'
    obtain ⟨hlt, hmemory⟩ := hlaid h' contents' hsome' j w hw
    exact ⟨hlt, by rw [update_of_ne (hother h' contents' hsome' hh j hlt), hmemory]⟩

end Objects

/-- Write the values to their addresses, from left to right. -/
def storeAll {A V : Type} [DecidableEq A] (memory : A → V) (stores : List (A × V)) : A → V :=
  stores.foldl (fun memory store => update memory store.1 store.2) memory

theorem storeAll_of_not_mem {A V : Type} [DecidableEq A] {stores : List (A × V)} {a : A}
    (hnot : a ∉ stores.map Prod.fst) (memory : A → V) : storeAll memory stores a = memory a := by
  induction stores generalizing memory with
  | nil => rfl
  | cons store stores ih =>
    rw [List.map_cons, List.mem_cons, not_or] at hnot
    have hrest : storeAll (update memory store.1 store.2) stores a = update memory store.1 store.2 a :=
      ih hnot.2 _
    exact hrest.trans (update_of_ne hnot.1 _ _)

end Base
