import CppServer.RefCounting.Accounting

namespace CppServer.RefCounting

open Function Base

variable {T V O : Type}

theorem Op.uncounted_entry (op : Op V O) : op.entry.uncounted = none := by
  cases op <;> rfl

theorem Op.deletes_entry [DecidableEq O] (op : Op V O) (o : O) : op.entry.deletes o = 0 := by
  cases op <;> rfl

variable [Fintype T] [DecidableEq V] [Fintype V] [DecidableEq O] {s : Threads T V O} {t : T}

/-- `new` gives an object its first reference. -/
theorem Wired.refs_created (hwired : Wired s) {o : O} (hnew : s.created o = false) (o' : O) :
    { s with
      heap := { s.heap with refCount := update s.heap.refCount o 1 }
      created := update s.created o true
      initial := update s.initial o true : Threads T V O }.refs o' =
      if o' = o then 1 else s.refs o' := by
  have hnone : s.refs o = 0 := by
    by_contra hpos
    rw [hwired.created_of_refs_pos (Nat.pos_of_ne_zero hpos)] at hnew
    cases hnew
  have hcount : count s.counted o = 0 := (Nat.add_eq_zero_iff.mp hnone).1
  change count s.counted o' + (update s.initial o true o').toNat = _
  by_cases ho : o' = o
  · rw [ho, update_self, if_pos rfl, hcount]
    rfl
  · rw [update_of_ne ho, if_neg ho, Threads.refs]

theorem Tally.created (htally : Tally s) (hwired : Wired s) {o : O} (hnew : s.created o = false) :
    Tally { s with
      heap := { s.heap with refCount := update s.heap.refCount o 1 }
      created := update s.created o true
      initial := update s.initial o true } := by
  constructor
  · intro o' hcreated
    rw [hwired.refs_created hnew]
    by_cases ho : o' = o
    · rw [if_pos ho, ho]
      exact update_self ..
    · have hold : s.created o' = true := (update_of_ne ho _ _).symm.trans hcreated
      rw [if_neg ho, ← htally.refCount o' hold]
      exact update_of_ne ho _ _
  · intro o'
    rw [hwired.refs_created hnew]
    have hbefore := htally.deletes o'
    by_cases ho : o' = o
    · subst ho
      rw [hnew, if_neg fun h => nomatch h.1] at hbefore
      rw [if_pos rfl, if_neg fun h => nomatch h.2]
      exact hbefore
    · simp only [if_neg ho, update_of_ne ho]
      exact hbefore

variable [DecidableEq T]

/-- An operation that begins changes no number. -/
theorem refs_called {op : Op V O} (hidle : s.pc t = .idle) (constructed : V → Bool) (o : O) :
    { s with pc := update s.pc t op.entry, constructed : Threads T V O }.refs o = s.refs o := by
  have hcounted : { s with pc := update s.pc t op.entry, constructed : Threads T V O }.counted =
      s.counted := by
    funext x
    have hiff : (∃ u, (update s.pc t op.entry u).uncounted = some x) ↔
        ∃ u, (s.pc u).uncounted = some x := by
      apply exists_congr
      intro u
      by_cases hu : u = t
      · rw [hu, update_self, op.uncounted_entry, hidle]
        rfl
      · rw [update_of_ne hu]
    simp only [Threads.counted, hiff]
  simp only [Threads.refs, hcounted]

theorem Tally.called (htally : Tally s) {op : Op V O} (hidle : s.pc t = .idle)
    (constructed : V → Bool) : Tally { s with pc := update s.pc t op.entry, constructed } := by
  have hdeleting (o : O) :
      { s with pc := update s.pc t op.entry, constructed : Threads T V O }.deleting o =
        s.deleting o := by
    apply Counting.total_update_same (Pc.deletes o)
    rw [op.deletes_entry, hidle]
    rfl
  constructor
  · intro o hcreated
    rw [refs_called hidle]
    exact htally.refCount o hcreated
  · intro o
    rw [refs_called hidle, hdeleting]
    exact htally.deletes o

omit [Fintype V] in
theorem wired_start : Wired (Threads.machine T V O).start :=
  ⟨rfl, fun _ _ _ h => absurd h List.not_mem_nil, nofun, fun _ => trivial,
    fun _ _ h => absurd h List.not_mem_nil, fun _ _ _ => rfl, nofun, nofun⟩

theorem tally_start : Tally (Threads.machine T V O).start := by
  constructor
  · intro o hcreated
    cases hcreated
  · intro o
    have hdeleting : (Threads.machine T V O).start.deleting o = 0 :=
      Finset.sum_eq_zero fun _ _ => rfl
    rw [hdeleting, if_neg fun h => nomatch h.1]
    rfl

theorem careful_start : (Threads.machine T V O).start.Careful := by
  have hcount (o : O) : (Threads.machine T V O).start.refs o = 0 := by
    have hcounted (x : V) : (Threads.machine T V O).start.counted x = none :=
      if_neg fun h => nomatch h.choose_spec
    exact Nat.add_eq_zero_iff.mpr ⟨Finset.sum_eq_zero fun x _ => if_neg (by rw [hcounted]; nofun), rfl⟩
  constructor
  · intro o
    rw [hcount]
    decide
  · exact nofun

/-- The invariant, with the condition that the runs keep. -/
structure Inv (s : Threads T V O) : Prop where
  wired : Wired s
  tally : Tally s
  careful : s.Careful

theorem Inv.step {s' : Threads T V O} {a : Act T V O} (hinv : Inv s) (hcareful : s'.Careful)
    (hstep : Threads.step s a = some s') : Inv s' := by
  obtain ⟨hwired, htally, hbefore⟩ := hinv
  cases a with
  | create o =>
    obtain ⟨hnew, rfl⟩ := Threads.step_create hstep
    exact ⟨hwired.created hnew, htally.created hwired hnew, hcareful⟩
  | call t op =>
    obtain ⟨hidle, hallowed, hfree, rfl⟩ := Threads.step_call hstep
    exact ⟨hwired.called hidle hallowed hfree, htally.called hidle _, hcareful⟩
  | run t =>
    obtain ⟨hnone, _⟩ | ⟨heap, pc, hcode, rfl⟩ := Threads.step_run hstep
    · exact absurd hnone (htally.step_ne_none hwired hbefore t)
    · exact ⟨hwired.step_run hcode, htally.step_run hwired hbefore hcode, hcareful⟩

theorem inv_of_run {as : List (Act T V O)}
    (hrun : (Threads.machine T V O).Run (fun _ _ s' => s'.Careful) as s) : Inv s := by
  apply hrun.invariant (P := Inv)
  · exact ⟨wired_start, tally_start, careful_start⟩
  · exact fun s a s' hinv hcareful hstep => hinv.step hcareful hstep

/-- What holds of the objects and variables in a state. -/
structure Accounted (s : Threads T V O) : Prop where
  safe : s.faulted = false
  atRest : (∀ t, s.pc t = .idle) → ∀ o, s.created o = true → s.heap.deletes o = 0 →
    (s.heap.refCount o).toInt = count s.heap.ptr o + (s.initial o).toNat
  once : ∀ o, s.heap.deletes o ≤ 1
  last : ∀ o, s.created o = true →
    s.heap.deletes o + s.deleting o = if s.refs o = 0 then 1 else 0
  dangling : ∀ x o, s.heap.ptr x = some o → s.heap.deletes o = 0 ∨ ∃ t next, s.pc t = .clear x next

omit [DecidableEq T] [Fintype V] [DecidableEq O] in
theorem Wired.counted_of_idle (hidle : ∀ t, s.pc t = .idle) : s.counted = s.heap.ptr := by
  funext x
  apply if_neg
  rintro ⟨t, ht⟩
  rw [hidle t] at ht
  cases ht

omit [DecidableEq T] in
/-- A pointer that no operation is about to clear is to an object that has not been
deleted. -/
theorem Tally.not_dangling (htally : Tally s) (hwired : Wired s) (hcareful : s.Careful) {x : V} {o : O}
    (hptr : s.heap.ptr x = some o) : s.heap.deletes o = 0 ∨ ∃ t next, s.pc t = .clear x next := by
  by_cases hcounted : s.counted x = some o
  · exact .inl (htally.deletes_eq_zero (refs_pos_of_counted hcounted))
  · have hsome : ∃ t, (s.pc t).uncounted = some x := by
      by_contra hnone
      rw [Threads.counted, if_neg hnone] at hcounted
      exact hcounted hptr
    obtain ⟨t, ht⟩ := hsome
    have hplace := hwired.place t
    cases hpc : s.pc t with
    | clear y next =>
      rw [hpc] at ht
      obtain rfl := Option.some.inj ht
      exact .inr ⟨t, next, hpc⟩
    | deleteThis o' caller =>
      rw [hpc] at ht hplace
      cases caller with
      | none => cases ht
      | some caller =>
        obtain rfl := Option.some.inj ht
        obtain rfl := Option.some.inj (hptr.symm.trans hplace)
        have hdeletes := htally.deletes o
        have hdeleting : 1 ≤ s.deleting o := by
          apply (Counting.le_total (fun u => (s.pc u).deletes o) t).trans' _
          rw [hpc]
          exact (if_pos rfl).ge
        left
        split at hdeletes <;> omega
    | addRef y o' rhs =>
      rw [hpc] at ht hplace
      obtain rfl := Option.some.inj ht
      have hy : s.heap.ptr y = some o' := by
        cases rhs with
        | none => exact hplace
        | some rhs => exact hplace.1
      obtain rfl := Option.some.inj (hptr.symm.trans hy)
      have hadds : (s.pc t).adds o = 1 := by
        rw [hpc]
        exact if_pos rfl
      exact .inl (htally.deletes_eq_zero (hwired.refs_pos_of_adds hcareful hadds))
    | drop y rhs =>
      have hmem : y ∈ (s.pc t).vars := by
        rw [hpc]
        exact List.mem_cons_self
      have hseen := hwired.counted_of_mem hmem
      rw [hpc] at ht hplace hseen
      obtain rfl := Option.some.inj ht
      have hne : (Pc.drop y rhs : Pc V O).uncounted ≠ some y := by
        intro h
        have hnull : s.heap.ptr y = none := hplace.2 (Option.some.inj h).symm
        rw [← hplace.1, hnull] at hptr
        cases hptr
      rw [Pc.seen_of_not _ hne, hplace.1, hptr] at hseen
      exact .inl (htally.deletes_eq_zero (refs_pos_of_counted hseen))
    | _ =>
      rw [hpc] at ht
      cases ht

omit [DecidableEq T] in
theorem Inv.accounted (hinv : Inv s) : Accounted s := by
  obtain ⟨hwired, htally, hcareful⟩ := hinv
  refine ⟨hwired.safe, ?_, ?_, ?_, fun x o hptr => htally.not_dangling hwired hcareful hptr⟩
  · intro hidle o hcreated _
    have hfew := hcareful.few o
    have hrefs : s.refs o = count s.heap.ptr o + (s.initial o).toNat := by
      rw [Threads.refs, Wired.counted_of_idle hidle]
    rw [htally.refCount o hcreated, BitVec.toInt_eq_toNat_of_lt, BitVec.toNat_ofNat,
      Nat.mod_eq_of_lt (by omega), hrefs]
    · rfl
    · rw [BitVec.toNat_ofNat]
      omega
  · intro o
    have hdeletes := htally.deletes o
    split at hdeletes <;> omega
  · intro o hcreated
    have hdeletes := htally.deletes o
    simpa only [hcreated, true_and] using hdeletes

omit [Fintype T] [DecidableEq V] [Fintype V] [DecidableEq T] in
theorem not_last_of_drops {s' : Threads T V O} {o : O} (hdrops : (s.pc t).drops o = 0) :
    ¬∃ u caller, (Act.run t : Act T V O) = .run u ∧ s.pc u = .releaseRef o caller ∧
      s'.pc u = .deleteThis o caller := by
  rintro ⟨u, caller, hu, hpc, _⟩
  cases hu
  rw [hpc, Pc.drops, if_pos rfl] at hdrops
  cases hdrops

/-- A call comes to stand before `delete this` by the very `ReleaseRef` that takes the
last reference. -/
theorem Inv.last_step (hinv : Inv s) {s' : Threads T V O} {a : Act T V O}
    (hstep : Threads.step s a = some s') {o : O} (hcreated : s.created o = true) :
    0 < s.refs o ∧ s'.refs o = 0 ↔
      ∃ t caller, a = .run t ∧ s.pc t = .releaseRef o caller ∧ s'.pc t = .deleteThis o caller := by
  obtain ⟨hwired, htally, hcareful⟩ := hinv
  cases a with
  | create o' =>
    obtain ⟨hnew, rfl⟩ := Threads.step_create hstep
    have hne : o ≠ o' := by
      rintro rfl
      rw [hnew] at hcreated
      cases hcreated
    rw [hwired.refs_created hnew, if_neg hne]
    refine iff_of_false (fun h => Nat.ne_of_gt h.1 h.2) ?_
    rintro ⟨t, caller, ha, _⟩
    cases ha
  | call t op =>
    obtain ⟨hidle, _, _, rfl⟩ := Threads.step_call hstep
    rw [refs_called hidle]
    refine iff_of_false (fun h => Nat.ne_of_gt h.1 h.2) ?_
    rintro ⟨t, caller, ha, _⟩
    cases ha
  | run t =>
    obtain ⟨hnone, _⟩ | ⟨heap, pc, hcode, rfl⟩ := Threads.step_run hstep
    · exact absurd hnone (htally.step_ne_none hwired hcareful t)
    · have hrefs := hwired.refs_step hcode o
      rcases (s.pc t).adds_drops o with ⟨hadds, hdrops⟩ | ⟨hadds, hdrops⟩ | ⟨hadds, hdrops⟩
      · rw [hadds, hdrops] at hrefs
        exact iff_of_false (by omega) (not_last_of_drops hdrops)
      · rw [hadds, hdrops] at hrefs
        exact iff_of_false (by omega) (not_last_of_drops hdrops)
      · have hlast := htally.last_iff hcareful hcreated (hwired.refs_pos_of_drops hdrops)
        obtain ⟨caller, hpc⟩ := Pc.eq_releaseRef hdrops
        rw [hadds, hdrops] at hrefs
        rw [hpc] at hcode
        simp only [RefCounting.step] at hcode
        split at hcode <;> cases hcode
        constructor
        · intro h
          refine ⟨t, caller, rfl, hpc, ?_⟩
          simp only [update_self]
          exact if_pos (hlast.mpr (by omega))
        · rintro ⟨u, caller', hu, _, hafter⟩
          cases hu
          simp only [update_self] at hafter
          by_cases hzero : s.heap.refCount o - 1 = 0
          · have hone := hlast.mp hzero
            omega
          · rw [if_neg hzero] at hafter
            cases caller <;> cases hafter

/-- In every state of every careful run, the reference counts are right, no object is
deleted twice, and no variable points to a deleted object, but for the moment in its
own `Release` before it becomes null. And a call comes to stand before `delete this`
by the very `ReleaseRef` that takes the last reference. -/
theorem refCount_accounts {as : List (Act T V O)}
    (hrun : (Threads.machine T V O).Run (fun _ _ s' => s'.Careful) as s) :
    Accounted s ∧ ∀ a s', (Threads.machine T V O).step s a = some s' →
      ∀ o, s.created o = true → (0 < s.refs o ∧ s'.refs o = 0 ↔
        ∃ t caller, a = .run t ∧ s.pc t = .releaseRef o caller ∧ s'.pc t = .deleteThis o caller) := by
  have hinv := inv_of_run hrun
  exact ⟨hinv.accounted, fun a s' hstep o hcreated => hinv.last_step hstep hcreated⟩

instance [Fintype O] (s : Threads T V O) : Decidable s.Careful :=
  decidable_of_iff
    ((∀ o, s.refs o < 2 ^ 31) ∧ ∀ t x o, s.pc t = .addRef x o none → 0 < s.refs o)
    ⟨fun h => ⟨h.1, h.2⟩, fun h => ⟨h.few, h.alive⟩⟩

/-- Two threads share an object through two variables, and its creator lets it go. -/
def shared (t u : T) : List (Act T Bool Unit) :=
  [.create (), .call t (.construct true (some ())), .run t, .run t,
    .call u (.copyConstruct false true), .run u, .call t (.releaseRef ()), .run t, .run u]

theorem refCount_accounts_shared : ∃ s,
    (Threads.machine (Fin 2) Bool Unit).exec (Threads.machine (Fin 2) Bool Unit).start
      (shared 0 1) = some s ∧ Accounted s := by
  have hcheck : ((Threads.machine (Fin 2) Bool Unit).check (fun _ _ s' => s'.Careful)
      (Threads.machine (Fin 2) Bool Unit).start (shared 0 1)).isSome := by
    decide
  obtain ⟨s, hs⟩ := Option.isSome_iff_exists.mp hcheck
  have hrun := Machine.run_of_check hs
  exact ⟨s, hrun.exec_eq, (refCount_accounts hrun).1⟩

/-- The last variable is destroyed, up to `delete this`. -/
def destroyed (t : T) : List (Act T Unit Unit) :=
  [.create (), .call t (.construct () (some ())), .run t, .run t, .call t (.releaseRef ()), .run t,
    .call t (.destroy ()), .run t, .run t, .run t]

/-- A variable is constructed from a raw pointer while another thread gives up the
only reference. -/
def raced (t u : T) : List (Act T Unit Unit) :=
  [.create (), .call t (.construct () (some ())), .run t, .call u (.releaseRef ()), .run u, .run u]

/-- A variable points to a deleted object inside its own `Release`, and, if the object
of a raw pointer dies during the construction, outside of it. -/
theorem dangling_inside_release :
    (∃ s, (Threads.machine (Fin 2) Unit Unit).Run (fun _ _ s' => s'.Careful) (destroyed 0) s ∧
      s.heap.ptr () = some () ∧ s.heap.deletes () = 1) ∧
    ∃ s, (Threads.machine (Fin 2) Unit Unit).Run Machine.Any (raced 0 1) s ∧
      s.heap.ptr () = some () ∧ s.heap.deletes () = 1 := by
  constructor
  · have hend : ((Threads.machine (Fin 2) Unit Unit).check (fun _ _ s' => s'.Careful)
        (Threads.machine (Fin 2) Unit Unit).start (destroyed 0)).map
          (fun s => (s.heap.ptr (), s.heap.deletes ())) = some (some (), 1) := by
      decide
    obtain ⟨s, hcheck, hs⟩ := Option.map_eq_some_iff.mp hend
    obtain ⟨hptr, hdeletes⟩ := Prod.mk.inj hs
    exact ⟨s, Machine.run_of_check hcheck, hptr, hdeletes⟩
  · have hend : ((Threads.machine (Fin 2) Unit Unit).exec
        (Threads.machine (Fin 2) Unit Unit).start (raced 0 1)).map
          (fun s => (s.heap.ptr (), s.heap.deletes ())) = some (some (), 1) := by
      decide
    obtain ⟨s, hexec, hs⟩ := Option.map_eq_some_iff.mp hend
    obtain ⟨hptr, hdeletes⟩ := Prod.mk.inj hs
    exact ⟨s, Machine.run_of_exec hexec, hptr, hdeletes⟩

end CppServer.RefCounting
