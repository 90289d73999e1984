import CppServer.RefCounting.Counted

namespace CppServer.RefCounting

open Function Base

variable {T V O : Type} [DecidableEq O]

/-- What the next step does to the number of references. -/
def Pc.adds (o : O) : Pc V O → ℕ
  | .addRef _ o' _ => if o' = o then 1 else 0
  | _ => 0

def Pc.drops (o : O) : Pc V O → ℕ
  | .releaseRef o' _ => if o' = o then 1 else 0
  | _ => 0

theorem Pc.eq_addRef {pc : Pc V O} {o : O} (hadds : pc.adds o = 1) :
    ∃ x rhs, pc = .addRef x o rhs := by
  cases pc with
  | addRef x o' rhs =>
    by_cases ho : o' = o
    · exact ⟨x, rhs, by rw [ho]⟩
    · rw [Pc.adds, if_neg ho] at hadds
      cases hadds
  | _ => cases hadds

theorem Pc.eq_releaseRef {pc : Pc V O} {o : O} (hdrops : pc.drops o = 1) :
    ∃ caller, pc = .releaseRef o caller := by
  cases pc with
  | releaseRef o' caller =>
    by_cases ho : o' = o
    · exact ⟨caller, by rw [ho]⟩
    · rw [Pc.drops, if_neg ho] at hdrops
      cases hdrops
  | _ => cases hdrops

/-- A step adds one reference, or drops one, or neither. -/
theorem Pc.adds_drops (pc : Pc V O) (o : O) :
    pc.adds o = 0 ∧ pc.drops o = 0 ∨ pc.adds o = 1 ∧ pc.drops o = 0 ∨
      pc.adds o = 0 ∧ pc.drops o = 1 := by
  cases pc with
  | addRef x o' rhs =>
    by_cases ho : o' = o
    · exact .inr (.inl ⟨if_pos ho, rfl⟩)
    · exact .inl ⟨if_neg ho, rfl⟩
  | releaseRef o' caller =>
    by_cases ho : o' = o
    · exact .inr (.inr ⟨rfl, if_pos ho⟩)
    · exact .inl ⟨rfl, if_neg ho⟩
  | _ => exact .inl ⟨rfl, rfl⟩

variable [DecidableEq V] {h h' : Heap V O} {pc pc' : Pc V O}

theorem refCount_step (hcode : RefCounting.step h pc = some (h', pc')) (o : O) :
    h'.refCount o + BitVec.ofNat 32 (pc.drops o) = h.refCount o + BitVec.ofNat 32 (pc.adds o) := by
  cases pc with
  | compare x rhs =>
    simp only [RefCounting.step] at hcode
    split at hcode <;> cases hcode <;> rfl
  | release x next =>
    simp only [RefCounting.step] at hcode
    split at hcode <;> cases hcode <;> rfl
  | releaseRef o' caller =>
    simp only [RefCounting.step] at hcode
    split at hcode <;> cases hcode
    simp only [Pc.drops, Pc.adds]
    by_cases ho : o = o'
    · simp [ho]
    · simp [ho, Ne.symm ho]
  | addRef x o' rhs =>
    simp only [RefCounting.step] at hcode
    split at hcode <;> cases hcode
    simp only [Pc.drops, Pc.adds]
    by_cases ho : o = o'
    · simp [ho]
    · simp [ho, Ne.symm ho]
  | _ =>
    cases hcode
    rfl

/-- The object is deleted, or about to be, from the `ReleaseRef` on that counts down
to zero. -/
theorem deletes_step (hcode : RefCounting.step h pc = some (h', pc')) (o : O) :
    h'.deletes o + pc'.deletes o = h.deletes o + pc.deletes o +
      if pc.drops o = 1 ∧ h.refCount o - 1 = 0 then 1 else 0 := by
  have hnext (x : V) (next : Next V) : (next.pc x : Pc V O).deletes o = 0 := by cases next <;> rfl
  have hreturned (caller : Option (V × Next V)) : (returned caller : Pc V O).deletes o = 0 := by
    cases caller <;> rfl
  cases pc with
  | compare x rhs =>
    simp only [RefCounting.step] at hcode
    split at hcode <;> cases hcode <;> rfl
  | release x next =>
    simp only [RefCounting.step] at hcode
    split at hcode <;> cases hcode
    · rfl
    · rw [hnext]
      rfl
  | releaseRef o' caller =>
    simp only [RefCounting.step] at hcode
    split at hcode <;> cases hcode
    simp only [Pc.drops]
    by_cases hzero : h.refCount o' - 1 = 0
    · rw [if_pos hzero]
      by_cases ho : o = o'
      · simpa [ho, Pc.deletes] using hzero
      · simp [Ne.symm ho, Pc.deletes]
    · rw [if_neg hzero, hreturned]
      by_cases ho : o = o'
      · simpa [ho, Pc.deletes] using hzero
      · simp [Ne.symm ho, Pc.deletes]
  | deleteThis o' caller =>
    cases hcode
    rw [hreturned]
    simp only [Pc.deletes, Pc.drops]
    by_cases ho : o = o'
    · simp [ho]
    · simp [ho, Ne.symm ho]
  | clear x next =>
    cases hcode
    rw [hnext]
    rfl
  | set x rhs =>
    cases hcode
    cases h.ptr rhs <;> rfl
  | setRaw x p =>
    cases hcode
    cases p <;> rfl
  | addRef x o' rhs =>
    simp only [RefCounting.step] at hcode
    split at hcode <;> cases hcode
    rfl
  | idle | take x rhs | drop x rhs =>
    cases hcode
    rfl

/-- What a step does to the count of the counted pointers, together with the initial
reference. -/
theorem count_moves [Fintype V] {ptr : V → Option O} {initial created : O → Bool} {c : V → Option O}
    (hholds : pc.Holds ptr initial created) (hcounted : ∀ x ∈ pc.vars, c x = pc.seen ptr x) (o : O) :
    count (pc.moves c) o + (pc.left initial o).toNat + pc.drops o =
      count c o + (initial o).toNat + pc.adds o := by
  cases pc with
  | addRef x o' rhs =>
    have hx : c x = none := hcounted x List.mem_cons_self ▸ Pc.seen_of_uncounted _ rfl
    have hcount := count_update c x (some o') o
    simp only [hx, reduceCtorEq, if_false, Option.some_inj] at hcount
    simp only [Pc.moves, Pc.left, Pc.drops, Pc.adds]
    omega
  | releaseRef o' caller =>
    cases caller with
    | none =>
      simp only [Pc.moves, Pc.left, Pc.drops, Pc.adds]
      by_cases ho : o = o'
      · rw [ho, update_self, show initial o' = true from hholds, if_pos rfl]
        rfl
      · rw [update_of_ne ho, if_neg (Ne.symm ho)]
    | some caller =>
      have hx : c caller.1 = some o' := (hcounted _ List.mem_cons_self).trans hholds
      have hcount := count_update c caller.1 none o
      simp only [hx, reduceCtorEq, if_false, Option.some_inj] at hcount
      simp only [Pc.moves, Pc.left, Pc.drops, Pc.adds]
      omega
  | take x rhs =>
    simp only [Pc.moves, Pc.left, Pc.drops, Pc.adds, count_swap]
  | _ => rfl

variable [Fintype T] [Fintype V] {s : Threads T V O} {t : T}

/-- The numbers in every state: `_refCount` is the number of references, and the
object has been deleted, or is about to be, exactly if there is none. -/
structure Tally (s : Threads T V O) : Prop where
  refCount : ∀ o, s.created o = true → s.heap.refCount o = BitVec.ofNat 32 (s.refs o)
  deletes : ∀ o, s.heap.deletes o + s.deleting o = if s.created o = true ∧ s.refs o = 0 then 1 else 0

theorem refs_pos_of_counted {x : V} {o : O} (hcounted : s.counted x = some o) : 0 < s.refs o :=
  Nat.add_pos_left (count_pos hcounted) _

theorem refs_pos_of_initial {o : O} (hinitial : s.initial o = true) : 0 < s.refs o := by
  unfold Threads.refs
  rw [hinitial]
  exact Nat.succ_pos _

/-- Only a created object has references. -/
theorem Wired.created_of_refs_pos (hwired : Wired s) {o : O} (hpos : 0 < s.refs o) :
    s.created o = true := by
  by_cases hinitial : s.initial o = true
  · exact hwired.initial o hinitial
  · rw [Threads.refs, Bool.eq_false_of_not_eq_true hinitial] at hpos
    obtain ⟨x, hx⟩ := exists_of_count_pos hpos
    exact hwired.pointed x o (ptr_of_counted hx)

theorem Tally.deletes_eq_zero (htally : Tally s) {o : O} (hpos : 0 < s.refs o) :
    s.heap.deletes o = 0 := by
  have hdeletes := htally.deletes o
  rw [if_neg fun h => Nat.ne_of_gt hpos h.2] at hdeletes
  omega

/-- A `ReleaseRef` gives up a reference that is there. -/
theorem Wired.refs_pos_of_drops (hwired : Wired s) {o : O} (hdrops : (s.pc t).drops o = 1) :
    0 < s.refs o := by
  obtain ⟨caller, hpc⟩ := Pc.eq_releaseRef hdrops
  have hplace := hwired.place t
  rw [hpc] at hplace
  cases caller with
  | none => exact refs_pos_of_initial hplace
  | some caller =>
    have hmem : caller.1 ∈ (s.pc t).vars := by
      rw [hpc]
      exact List.mem_cons_self
    apply refs_pos_of_counted (x := caller.1)
    rw [hwired.counted_of_mem hmem, hpc]
    exact hplace

/-- An `AddRef` is called on an object that has a reference: the variable that is
copied, or what the caller with the raw pointer vouches for. -/
theorem Wired.refs_pos_of_adds (hwired : Wired s) (hcareful : s.Careful) {o : O}
    (hadds : (s.pc t).adds o = 1) : 0 < s.refs o := by
  obtain ⟨x, rhs, hpc⟩ := Pc.eq_addRef hadds
  have hplace := hwired.place t
  rw [hpc] at hplace
  cases rhs with
  | none => exact hcareful.alive t x o hpc
  | some rhs =>
    have hmem : rhs ∈ (s.pc t).vars := by
      rw [hpc]
      exact List.mem_cons_of_mem _ List.mem_cons_self
    apply refs_pos_of_counted (x := rhs)
    rw [hwired.counted_of_mem hmem, hpc, Pc.seen_of_not]
    · exact hplace.2.1
    · exact fun h => hplace.2.2 (Option.some.inj h)

/-- The decrement that finds one reference is the one that counts down to zero. -/
theorem Tally.last_iff (htally : Tally s) (hcareful : s.Careful) {o : O}
    (hcreated : s.created o = true) (hpos : 0 < s.refs o) :
    s.heap.refCount o - 1 = 0 ↔ s.refs o = 1 := by
  have hfew := hcareful.few o
  rw [htally.refCount o hcreated]
  constructor
  · intro h
    bv_omega
  · intro h
    rw [h]
    rfl

/-- No step accesses a deleted object. -/
theorem Tally.step_ne_none (htally : Tally s) (hwired : Wired s) (hcareful : s.Careful) (t : T) :
    RefCounting.step s.heap (s.pc t) ≠ none := by
  intro hnone
  cases hpc : s.pc t with
  | releaseRef o caller =>
    have hdrops : (s.pc t).drops o = 1 := by
      rw [hpc]
      exact if_pos rfl
    have hzero := htally.deletes_eq_zero (hwired.refs_pos_of_drops hdrops)
    simp [hpc, RefCounting.step, hzero] at hnone
  | addRef x o rhs =>
    have hadds : (s.pc t).adds o = 1 := by
      rw [hpc]
      exact if_pos rfl
    have hzero := htally.deletes_eq_zero (hwired.refs_pos_of_adds hcareful hadds)
    simp [hpc, RefCounting.step, hzero] at hnone
  | compare x rhs =>
    rw [hpc, RefCounting.step] at hnone
    split at hnone <;> cases hnone
  | release x next =>
    rw [hpc, RefCounting.step] at hnone
    split at hnone <;> cases hnone
  | _ =>
    rw [hpc] at hnone
    cases hnone

variable [DecidableEq T]

theorem Wired.refs_step (hwired : Wired s) {heap : Heap V O} {pc : Pc V O}
    (hcode : RefCounting.step s.heap (s.pc t) = some (heap, pc)) (o : O) :
    { s with
      heap
      pc := update s.pc t pc
      initial := (s.pc t).left s.initial : Threads T V O }.refs o + (s.pc t).drops o =
      s.refs o + (s.pc t).adds o := by
  have hmoves := count_moves (hwired.place t) (fun x hx => hwired.counted_of_mem hx) o
  rw [← hwired.counted_step hcode ((s.pc t).left s.initial)] at hmoves
  exact hmoves

/-- The step lemma for the numbers. -/
theorem Tally.step_run (htally : Tally s) (hwired : Wired s) (hcareful : s.Careful)
    {heap : Heap V O} {pc : Pc V O}
    (hcode : RefCounting.step s.heap (s.pc t) = some (heap, pc)) :
    Tally { s with heap, pc := update s.pc t pc, initial := (s.pc t).left s.initial } := by
  constructor
  · intro o hcreated
    have hrefs := hwired.refs_step hcode o
    have hbefore := htally.refCount o hcreated
    have hcount := refCount_step hcode o
    simp only at hrefs hcount ⊢
    bv_omega
  · intro o
    have hrefs := hwired.refs_step hcode o
    have hbefore := htally.deletes o
    have hdeletes := deletes_step hcode o
    have hdeleting := Counting.total_update (Pc.deletes o) s.pc t pc
    simp only [Threads.deleting] at hbefore ⊢
    rcases (s.pc t).adds_drops o with ⟨hadds, hdrops⟩ | ⟨hadds, hdrops⟩ | ⟨hadds, hdrops⟩
    · rw [hadds, hdrops] at hrefs
      rw [hdrops, if_neg fun h => Nat.zero_ne_one h.1] at hdeletes
      rw [Nat.add_zero, Nat.add_zero] at hrefs
      rw [hrefs]
      omega
    · have hpos := hwired.refs_pos_of_adds hcareful hadds
      rw [hadds, hdrops] at hrefs
      rw [hdrops, if_neg fun h => Nat.zero_ne_one h.1] at hdeletes
      rw [if_neg fun h => Nat.ne_of_gt hpos h.2] at hbefore
      rw [if_neg fun h => by omega]
      omega
    · have hpos := hwired.refs_pos_of_drops hdrops
      have hcreated := hwired.created_of_refs_pos hpos
      have hlast := htally.last_iff hcareful hcreated hpos
      rw [hadds, hdrops] at hrefs
      rw [if_neg fun h => Nat.ne_of_gt hpos h.2] at hbefore
      by_cases hone : s.refs o = 1
      · rw [if_pos ⟨hdrops, hlast.mpr hone⟩] at hdeletes
        rw [if_pos ⟨hcreated, by omega⟩]
        omega
      · rw [if_neg fun h => hone (hlast.mp h.2)] at hdeletes
        rw [if_neg fun h => hone (by omega)]
        omega

end CppServer.RefCounting
