import CppServer.Base.Counting
import CppServer.RefCounting.Variables

namespace CppServer.RefCounting

open Function Base

variable {T V O : Type}

section

variable [Fintype V] [DecidableEq O]

theorem count_pos {ptr : V → Option O} {x : V} {o : O} (hptr : ptr x = some o) : 0 < count ptr o := by
  have hle := Counting.le_total (fun z => if ptr z = some o then 1 else 0) x
  rw [if_pos hptr] at hle
  exact hle

theorem exists_of_count_pos {ptr : V → Option O} {o : O} (hpos : 0 < count ptr o) :
    ∃ x, ptr x = some o := by
  by_contra hnone
  have hzero : count ptr o = 0 :=
    Finset.sum_eq_zero fun x _ => if_neg fun hx => hnone ⟨x, hx⟩
  omega

variable [DecidableEq V]

theorem count_update (ptr : V → Option O) (x : V) (p : Option O) (o : O) :
    count (update ptr x p) o + (if ptr x = some o then 1 else 0) =
      count ptr o + if p = some o then 1 else 0 :=
  Counting.total_update (fun q => if q = some o then 1 else 0) ptr x p

theorem count_swap (ptr : V → Option O) (x y : V) (o : O) :
    count (fun z => ptr (Equiv.swap x y z)) o = count ptr o :=
  Equiv.sum_comp (Equiv.swap x y) fun z => if ptr z = some o then 1 else 0

end

theorem Pc.mem_vars_of_uncounted {pc : Pc V O} {x : V} (huncounted : pc.uncounted = some x) :
    x ∈ pc.vars := by
  cases pc with
  | clear y next | addRef y o rhs =>
    obtain rfl := Option.some.inj huncounted
    exact List.mem_cons_self
  | deleteThis o caller =>
    cases caller with
    | none => cases huncounted
    | some caller =>
      obtain rfl := Option.some.inj huncounted
      exact List.mem_cons_self
  | drop y rhs =>
    obtain rfl := Option.some.inj huncounted
    exact List.mem_cons_of_mem _ List.mem_cons_self
  | _ => cases huncounted

variable [DecidableEq V]

/-- A variable's pointer, unless the place does not count it. -/
def Pc.seen (ptr : V → Option O) (pc : Pc V O) (x : V) : Option O :=
  if pc.uncounted = some x then none else ptr x

/-- What the next step does to the counted pointers: `AddRef` counts one, a variable's
`ReleaseRef` stops counting one, and a move passes one on. -/
def Pc.moves (c : V → Option O) : Pc V O → V → Option O
  | .addRef x o _ => update c x (some o)
  | .releaseRef _ (some (x, _)) => update c x none
  | .take x rhs => fun y => c (Equiv.swap x rhs y)
  | _ => c

theorem Pc.seen_of_not (ptr : V → Option O) {pc : Pc V O} {x : V} (hx : pc.uncounted ≠ some x) :
    pc.seen ptr x = ptr x :=
  if_neg hx

theorem Pc.seen_of_uncounted (ptr : V → Option O) {pc : Pc V O} {x : V} (hx : pc.uncounted = some x) :
    pc.seen ptr x = none :=
  if_pos hx

/-- A step makes a null variable null, or sets a pointer that it does not count. -/
theorem Pc.seen_update {ptr : V → Option O} {y : V} {p : Option O} (pc pc' : Pc V O)
    (hbefore : pc.seen ptr y = none) (hafter : p = none ∨ pc'.uncounted = some y)
    (hothers : ∀ x, x ≠ y → (pc'.uncounted = some x ↔ pc.uncounted = some x)) (x : V) :
    pc'.seen (update ptr y p) x = pc.seen ptr x := by
  by_cases hx : x = y
  · rw [hx, hbefore, Pc.seen]
    split
    · rfl
    · rename_i hcounted
      rw [update_self]
      exact hafter.resolve_right hcounted
  · simp only [Pc.seen, hothers x hx, update_of_ne hx]

theorem Pc.moves_congr {c c' : V → Option O} {pc : Pc V O} (hsame : ∀ x ∈ pc.vars, c x = c' x) {x : V}
    (hx : x ∈ pc.vars) : pc.moves c x = pc.moves c' x := by
  have hupdate (y : V) (p : Option O) : update c y p x = update c' y p x := by
    by_cases hxy : x = y
    · rw [hxy, update_self, update_self]
    · rw [update_of_ne hxy, update_of_ne hxy]
      exact hsame x hx
  cases pc with
  | addRef y o rhs => exact hupdate y (some o)
  | releaseRef o caller =>
    cases caller with
    | none => exact absurd hx List.not_mem_nil
    | some caller => exact hupdate caller.1 none
  | take y rhs =>
    apply hsame
    rw [Equiv.swap_apply_def]
    split
    · exact List.mem_cons_of_mem _ List.mem_cons_self
    · split
      · exact List.mem_cons_self
      · exact hx
  | _ => exact hsame x hx

theorem Pc.moves_of_not_mem (c : V → Option O) {pc : Pc V O} {x : V} (hx : x ∉ pc.vars) : pc.moves c x = c x := by
  cases pc with
  | addRef y o rhs => exact update_of_ne (List.ne_of_not_mem_cons hx) _ _
  | releaseRef o caller =>
    cases caller with
    | none => rfl
    | some caller => exact update_of_ne (List.ne_of_not_mem_cons hx) _ _
  | take y rhs =>
    have hrhs := List.ne_of_not_mem_cons (List.not_mem_of_not_mem_cons hx)
    exact congrArg c (Equiv.swap_apply_of_ne_of_ne (List.ne_of_not_mem_cons hx) hrhs)
  | _ => rfl

variable [Fintype T] {s : Threads T V O} {t : T}

theorem ptr_of_counted {x : V} {o : O} (hcounted : s.counted x = some o) : s.heap.ptr x = some o := by
  unfold Threads.counted at hcounted
  split at hcounted
  · cases hcounted
  · exact hcounted

/-- Whether a pointer in use is counted depends on its operation only. -/
theorem Wired.counted_of_mem (hwired : Wired s) {x : V} (hx : x ∈ (s.pc t).vars) :
    s.counted x = (s.pc t).seen s.heap.ptr x := by
  have hiff : (∃ u, (s.pc u).uncounted = some x) ↔ (s.pc t).uncounted = some x := by
    constructor
    · rintro ⟨u, hu⟩
      rwa [hwired.apart u t x (Pc.mem_vars_of_uncounted hu) hx] at hu
    · exact fun ht => ⟨t, ht⟩
  simp only [Threads.counted, Pc.seen, hiff]

variable [DecidableEq O] {h h' : Heap V O} {pc pc' : Pc V O}

theorem seen_step {initial created : O → Bool} (hholds : pc.Holds h.ptr initial created)
    (hcode : RefCounting.step h pc = some (h', pc')) (x : V) :
    pc'.seen h'.ptr x = pc.moves (pc.seen h.ptr) x := by
  cases pc with
  | idle =>
    cases hcode
    rfl
  | compare y rhs =>
    simp only [RefCounting.step] at hcode
    split at hcode <;> cases hcode <;> rfl
  | release y next =>
    simp only [RefCounting.step] at hcode
    split at hcode <;> cases hcode
    · rfl
    · cases next <;> rfl
  | releaseRef o caller =>
    simp only [RefCounting.step] at hcode
    split at hcode <;> cases hcode
    cases caller with
    | none => split <;> rfl
    | some caller =>
      by_cases hx : x = caller.1
      · split <;> simp [Pc.seen, Pc.uncounted, Pc.moves, returned, hx]
      · split <;> simp [Pc.seen, Pc.uncounted, Pc.moves, returned, hx, Ne.symm hx]
  | deleteThis o caller =>
    cases hcode
    cases caller <;> rfl
  | clear y next =>
    cases hcode
    have hnext : (next.pc y : Pc V O).uncounted = none := by cases next <;> rfl
    apply Pc.seen_update (.clear y next) (next.pc y) (Pc.seen_of_uncounted _ rfl) (.inl rfl)
    intro z hz
    rw [hnext]
    exact iff_of_false (Option.some_ne_none z).symm fun h => hz (Option.some.inj h).symm
  | set y rhs =>
    cases hcode
    have hbefore : (Pc.set y rhs).seen h.ptr y = none := hholds
    cases hrhs : h.ptr rhs with
    | none => exact Pc.seen_update _ .idle hbefore (.inl rfl) (fun _ _ => Iff.rfl) x
    | some o =>
      apply Pc.seen_update _ (.addRef y o (some rhs)) hbefore (.inr rfl)
      exact fun z hz => iff_of_false (fun h => hz (Option.some.inj h).symm)
        (Option.some_ne_none z).symm
  | setRaw y p =>
    cases hcode
    have hbefore : (Pc.setRaw y p).seen h.ptr y = none := hholds.1
    cases p with
    | none => exact Pc.seen_update _ .idle hbefore (.inl rfl) (fun _ _ => Iff.rfl) x
    | some o =>
      apply Pc.seen_update _ (.addRef y o none) hbefore (.inr rfl)
      exact fun z hz => iff_of_false (fun h => hz (Option.some.inj h).symm)
        (Option.some_ne_none z).symm
  | addRef y o rhs =>
    simp only [RefCounting.step] at hcode
    split at hcode <;> cases hcode
    have hptr : h.ptr y = some o := by
      cases rhs with
      | none => exact hholds
      | some rhs => exact hholds.1
    change h.ptr x = update ((Pc.addRef y o rhs).seen h.ptr) y (some o) x
    by_cases hx : x = y
    · rw [hx, update_self, hptr]
    · rw [update_of_ne hx, Pc.seen_of_not]
      exact fun h => hx (Option.some.inj h).symm
  | take y rhs =>
    cases hcode
    change Pc.seen (update h.ptr y (h.ptr rhs)) (.drop y rhs) x = h.ptr (Equiv.swap y rhs x)
    by_cases hrhs : x = rhs
    · rw [hrhs, Equiv.swap_apply_right, Pc.seen_of_uncounted _ rfl]
      exact (show h.ptr y = none from hholds).symm
    · have hcounted : (Pc.drop y rhs : Pc V O).uncounted ≠ some x :=
        fun h => hrhs (Option.some.inj h).symm
      rw [Pc.seen_of_not _ hcounted]
      by_cases hy : x = y
      · rw [hy, update_self, Equiv.swap_apply_left]
      · rw [update_of_ne hy, Equiv.swap_apply_of_ne_of_ne hy hrhs]
  | drop y rhs =>
    cases hcode
    apply Pc.seen_update (.drop y rhs) .idle (Pc.seen_of_uncounted _ rfl) (.inl rfl)
    exact fun z hz => iff_of_false (Option.some_ne_none z).symm fun h => hz (Option.some.inj h).symm

variable [DecidableEq T]

/-- A step of one thread does to the counted pointers what it says. -/
theorem Wired.counted_step (hwired : Wired s) {heap : Heap V O} {pc : Pc V O}
    (hcode : RefCounting.step s.heap (s.pc t) = some (heap, pc)) (initial : O → Bool) :
    { s with heap, pc := update s.pc t pc, initial : Threads T V O }.counted =
      (s.pc t).moves s.counted := by
  funext x
  by_cases hx : x ∈ (s.pc t).vars
  · have hiff : (∃ u, (update s.pc t pc u).uncounted = some x) ↔ pc.uncounted = some x := by
      constructor
      · rintro ⟨u, hu⟩
        by_cases hut : u = t
        · rwa [hut, update_self] at hu
        · rw [update_of_ne hut] at hu
          exact absurd (hwired.apart u t x (Pc.mem_vars_of_uncounted hu) hx) hut
      · intro ht
        exact ⟨t, by rwa [update_self]⟩
    have hsame (y : V) (hy : y ∈ (s.pc t).vars) : s.counted y = (s.pc t).seen s.heap.ptr y :=
      hwired.counted_of_mem hy
    rw [Pc.moves_congr hsame hx, ← seen_step (hwired.place t) hcode x]
    simp only [Threads.counted, Pc.seen, hiff]
  · have hiff : (∃ u, (update s.pc t pc u).uncounted = some x) ↔ ∃ u, (s.pc u).uncounted = some x := by
      apply exists_congr
      intro u
      by_cases hut : u = t
      · rw [hut, update_self]
        have hout (q : Pc V O) (hq : ∀ y ∈ q.vars, y ∈ (s.pc t).vars) : q.uncounted ≠ some x :=
          fun h => hx (hq x (Pc.mem_vars_of_uncounted h))
        exact iff_of_false (hout pc (vars_step hcode)) (hout (s.pc t) fun _ hy => hy)
      · rw [update_of_ne hut]
    rw [Pc.moves_of_not_mem s.counted hx]
    simp only [Threads.counted, hiff, ptr_step hcode hx]

end CppServer.RefCounting
