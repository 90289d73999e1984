import CppServer.RefCounting.Invariant

namespace CppServer.RefCounting

open Function Base

variable {T V O : Type}

/-- The variables are used by one operation at a time, point to created objects,
and are null where there is no variable. -/
structure Wired (s : Threads T V O) : Prop where
  safe : s.faulted = false
  apart : ∀ t u x, x ∈ (s.pc t).vars → x ∈ (s.pc u).vars → t = u
  single : ∀ t u o, s.pc t = .releaseRef o none → s.pc u = .releaseRef o none → t = u
  place : ∀ t, (s.pc t).Holds s.heap.ptr s.initial s.created
  built : ∀ t, ∀ x ∈ (s.pc t).vars, (s.pc t).destroys = some x ∨ s.constructed x = true
  blank : ∀ x, s.constructed x = false → (∀ t, x ∉ (s.pc t).vars) → s.heap.ptr x = none
  pointed : ∀ x o, s.heap.ptr x = some o → s.created o = true
  initial : ∀ o, s.initial o = true → s.created o = true

variable {s : Threads T V O} {t : T}

theorem Op.vars_entry (op : Op V O) : op.entry.vars = op.vars := by
  cases op <;> rfl

theorem Op.sole {op : Op V O} (hallowed : op.Allowed s) {o : O} (hentry : op.entry = .releaseRef o none)
    (u : T) : s.pc u ≠ .releaseRef o none := by
  cases op with
  | releaseRef o' =>
    cases hentry
    exact hallowed.2 u
  | _ => cases hentry

section

variable [DecidableEq O]

/-- A step gives up an initial reference only in the creator's `ReleaseRef`. -/
theorem Pc.left_eq (pc : Pc V O) (initial : O → Bool) {o : O} (hpc : pc ≠ .releaseRef o none) :
    pc.left initial o = initial o := by
  cases pc with
  | releaseRef o' caller =>
    cases caller with
    | none =>
      have hne : o ≠ o' := by
        rintro rfl
        exact hpc rfl
      exact update_of_ne hne _ _
    | some caller => rfl
  | _ => rfl

theorem Wired.created (hwired : Wired s) {o : O} (hnew : s.created o = false) :
    Wired { s with
      heap := { s.heap with refCount := update s.heap.refCount o 1 }
      created := update s.created o true
      initial := update s.initial o true } := by
  have hne (o' : O) (ho' : s.created o' = true) : o' ≠ o := by
    rintro rfl
    rw [hnew] at ho'
    cases ho'
  have hkeep (o' : O) (ho' : s.created o' = true) : update s.created o true o' = true :=
    (update_of_ne (hne o' ho') _ _).trans ho'
  refine ⟨hwired.safe, hwired.apart, hwired.single, ?_, hwired.built, hwired.blank, ?_, ?_⟩
  · intro t
    apply (hwired.place t).congr (fun _ _ => rfl) _ hkeep
    intro o' hpc
    have hplace := hwired.place t
    rw [hpc] at hplace
    exact update_of_ne (hne o' (hwired.initial o' hplace)) _ _
  · exact fun x o' hptr => hkeep o' (hwired.pointed x o' hptr)
  · intro o' ho'
    by_cases heq : o' = o
    · rw [heq]
      exact update_self ..
    · have hold : s.initial o' = true := (update_of_ne heq _ _).symm.trans ho'
      exact hkeep o' (hwired.initial o' hold)

end

variable [DecidableEq V]

theorem Op.constructs_of_not_mem (op : Op V O) (constructed : V → Bool) {x : V} (hx : x ∉ op.vars) :
    op.constructs constructed x = constructed x := by
  cases op with
  | construct y p | destroy y => exact update_of_ne (List.ne_of_not_mem_cons hx) _ _
  | copyConstruct y rhs | moveConstruct y rhs =>
    exact update_of_ne (List.ne_of_not_mem_cons hx) _ _
  | _ => rfl

/-- An operation's variables are constructed while it runs, but for the one that it
destroys. -/
theorem Op.built_entry {op : Op V O} (hallowed : op.Allowed s) {x : V} (hx : x ∈ op.vars) :
    op.entry.destroys = some x ∨ op.constructs s.constructed x = true := by
  have hupdate {y z : V} (hz : s.constructed z = true) : update s.constructed y true z = true := by
    by_cases heq : z = y
    · rw [heq, update_self]
    · rw [update_of_ne heq]
      exact hz
  cases op with
  | construct y p =>
    obtain rfl := List.mem_singleton.mp hx
    exact .inr (update_self ..)
  | copyConstruct y rhs | moveConstruct y rhs =>
    rcases List.mem_cons.mp hx with rfl | hrhs
    · exact .inr (update_self ..)
    · obtain rfl := List.mem_singleton.mp hrhs
      exact .inr (hupdate hallowed.2)
  | copyAssign y rhs | moveAssign y rhs =>
    rcases List.mem_cons.mp hx with rfl | hrhs
    · exact .inr hallowed.1
    · obtain rfl := List.mem_singleton.mp hrhs
      exact .inr hallowed.2
  | destroy y =>
    obtain rfl := List.mem_singleton.mp hx
    exact .inl rfl
  | releaseRef o => exact absurd hx List.not_mem_nil

variable [DecidableEq T]

theorem Wired.called (hwired : Wired s) {op : Op V O} (hidle : s.pc t = .idle) (hallowed : op.Allowed s)
    (hfree : ∀ u, ∀ x ∈ op.vars, x ∉ (s.pc u).vars) :
    Wired { s with
      pc := update s.pc t op.entry
      constructed := op.constructs s.constructed } := by
  have hnull (x : V) (hx : x ∈ op.vars) (hconstructed : s.constructed x = false) :
      s.heap.ptr x = none :=
    hwired.blank x hconstructed fun u => hfree u x hx
  refine ⟨hwired.safe, ?_, ?_, ?_, ?_, ?_, hwired.pointed, hwired.initial⟩
  · intro u v x hu hv
    by_cases hut : u = t
    · by_cases hvt : v = t
      · rw [hut, hvt]
      · simp only [hut, update_self, op.vars_entry] at hu
        simp only [update_of_ne hvt] at hv
        exact absurd hv (hfree v x hu)
    · simp only [update_of_ne hut] at hu
      by_cases hvt : v = t
      · simp only [hvt, update_self, op.vars_entry] at hv
        exact absurd hu (hfree u x hv)
      · simp only [update_of_ne hvt] at hv
        exact hwired.apart u v x hu hv
  · intro u v o hu hv
    by_cases hut : u = t
    · by_cases hvt : v = t
      · rw [hut, hvt]
      · simp only [hut, update_self] at hu
        simp only [update_of_ne hvt] at hv
        exact absurd hv (Op.sole hallowed hu v)
    · simp only [update_of_ne hut] at hu
      by_cases hvt : v = t
      · simp only [hvt, update_self] at hv
        exact absurd hu (Op.sole hallowed hv u)
      · simp only [update_of_ne hvt] at hv
        exact hwired.single u v o hu hv
  · apply (forall_update_iff s.pc fun _ pc => pc.Holds s.heap.ptr s.initial s.created).mpr
    refine ⟨?_, fun u _ => hwired.place u⟩
    cases op with
    | construct x p => exact ⟨hnull x List.mem_cons_self hallowed.1, fun o ho => (hallowed.2 o ho).1⟩
    | copyConstruct x rhs => exact hnull x List.mem_cons_self hallowed.1
    | moveConstruct x rhs => exact hnull x List.mem_cons_self hallowed.1
    | copyAssign x rhs => trivial
    | moveAssign x rhs => trivial
    | destroy x => trivial
    | releaseRef o => exact hallowed.1
  · apply (forall_update_iff s.pc fun _ pc =>
      ∀ x ∈ pc.vars, pc.destroys = some x ∨ op.constructs s.constructed x = true).mpr
    refine ⟨fun x hx => Op.built_entry hallowed (op.vars_entry ▸ hx), fun u _ x hx => ?_⟩
    rw [op.constructs_of_not_mem s.constructed fun hop => hfree u x hop hx]
    exact hwired.built u x hx
  · intro x hconstructed hunused
    have hout : x ∉ op.vars := by
      have hself := hunused t
      simp only [update_self, op.vars_entry] at hself
      exact hself
    have hsame := op.constructs_of_not_mem s.constructed hout
    apply hwired.blank x (hsame.symm.trans hconstructed)
    intro u hu
    by_cases hut : u = t
    · rw [hut, hidle] at hu
      exact absurd hu List.not_mem_nil
    · have hother := hunused u
      simp only [update_of_ne hut] at hother
      exact hother hu

variable [DecidableEq O]

/-- The step lemma for the variables. -/
theorem Wired.step_run (hwired : Wired s) {heap : Heap V O} {pc : Pc V O}
    (hcode : RefCounting.step s.heap (s.pc t) = some (heap, pc)) :
    Wired { s with heap, pc := update s.pc t pc, initial := (s.pc t).left s.initial } := by
  have hvars := vars_step hcode
  have hpcs (u : T) : ∀ x ∈ (update s.pc t pc u).vars, x ∈ (s.pc u).vars := by
    by_cases hu : u = t
    · rw [hu, update_self]
      exact hvars
    · rw [update_of_ne hu]
      exact fun x hx => hx
  have hleft (o : O) (ho : (s.pc t).left s.initial o = true) : s.initial o = true := by
    by_cases hpc : s.pc t = .releaseRef o none
    · rw [hpc, Pc.left, update_self] at ho
      cases ho
    · rwa [(s.pc t).left_eq s.initial hpc] at ho
  refine ⟨hwired.safe, ?_, ?_, ?_, ?_, ?_, ?_, ?_⟩
  · intro u v x hu hv
    exact hwired.apart u v x (hpcs u x hu) (hpcs v x hv)
  · intro u v o hu hv
    have hne (w : T) (hw : update s.pc t pc w = .releaseRef o none) : w ≠ t := by
      rintro rfl
      rw [update_self] at hw
      exact ne_releaseRef_step hcode o hw
    simp only [update_of_ne (hne u hu)] at hu
    simp only [update_of_ne (hne v hv)] at hv
    exact hwired.single u v o hu hv
  · apply (forall_update_iff s.pc fun _ pc => pc.Holds heap.ptr _ s.created).mpr
    refine ⟨(hwired.place t).step hcode, fun u hu => (hwired.place u).congr ?_ ?_ fun _ h => h⟩
    · intro x hx
      exact ptr_step hcode fun ht => hu (hwired.apart u t x hx ht)
    · intro o hpc
      exact (s.pc t).left_eq s.initial fun ht => hu (hwired.single u t o hpc ht)
  · apply (forall_update_iff s.pc fun _ pc =>
      ∀ x ∈ pc.vars, pc.destroys = some x ∨ s.constructed x = true).mpr
    refine ⟨fun x hx => ?_, fun u _ => hwired.built u⟩
    rcases hwired.built t x (hvars x hx) with hdestroys | hconstructed
    · rcases destroys_step hcode hdestroys with hstill | ⟨hnone, _⟩
      · exact .inl hstill
      · rw [hnone] at hx
        exact absurd hx List.not_mem_nil
    · exact .inr hconstructed
  · intro x hconstructed hfree
    by_cases hx : x ∈ (s.pc t).vars
    · rcases hwired.built t x hx with hdestroys | hbuilt
      · rcases destroys_step hcode hdestroys with hstill | ⟨_, hnull⟩
        · have hself := hfree t
          simp only [update_self] at hself
          exact absurd (Pc.mem_vars_of_destroys hstill) hself
        · exact hnull
      · rw [hconstructed] at hbuilt
        cases hbuilt
    · have hsame : heap.ptr x = s.heap.ptr x := ptr_step hcode hx
      rw [hsame]
      apply hwired.blank x hconstructed
      intro u hu
      by_cases hut : u = t
      · exact hx (hut ▸ hu)
      · have hother := hfree u
        simp only [update_of_ne hut] at hother
        exact hother hu
  · exact fun x o hptr => pointed_step (hwired.place t) hwired.pointed hcode hptr
  · exact fun o ho => hwired.initial o (hleft o ho)

end CppServer.RefCounting
