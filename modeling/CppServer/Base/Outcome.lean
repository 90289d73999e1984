import Mathlib

namespace Base

variable {ε α β σ : Type}

@[simp] theorem ok_bind (a : α) (f : α → Except ε β) : (Except.ok a >>= f) = f a := rfl

theorem bind_eq_ok {x : Except ε α} {f : α → Except ε β} {b : β} :
    (x >>= f) = .ok b ↔ ∃ a, x = .ok a ∧ f a = .ok b := by
  cases x with
  | ok a => simp
  | error e =>
    constructor
    · intro h
      cases h
    · rintro ⟨a, h, _⟩
      cases h

theorem bind_eq_error {x : Except ε α} {f : α → Except ε β} {e : ε} :
    (x >>= f) = .error e ↔ x = .error e ∨ ∃ a, x = .ok a ∧ f a = .error e := by
  cases x with
  | ok a => simp
  | error e' =>
    constructor
    · exact fun h => .inl (congrArg Except.error (Except.error.inj h))
    · rintro (h | ⟨a, h, _⟩)
      · exact congrArg Except.error (Except.error.inj h)
      · cases h

/-- A loop over a list ends in an error of one of its rounds; the rounds before it return. -/
theorem foldlM_eq_error {f : σ → α → Except ε σ} {l : List α} {s : σ} {e : ε} :
    l.foldlM f s = .error e ↔
      ∃ before a after s', l = before ++ a :: after ∧ before.foldlM f s = .ok s' ∧ f s' a = .error e := by
  constructor
  · intro hloop
    induction l generalizing s with
    | nil => cases hloop
    | cons a l ih =>
      rw [List.foldlM_cons] at hloop
      rcases bind_eq_error.mp hloop with hfirst | ⟨s₁, hfirst, hrest⟩
      · exact ⟨[], a, l, s, rfl, rfl, hfirst⟩
      · obtain ⟨before, b, after, s', hl, hbefore, hb⟩ := ih hrest
        refine ⟨a :: before, b, after, s', by rw [hl, List.cons_append], ?_, hb⟩
        rw [List.foldlM_cons, hfirst]
        exact hbefore
  · rintro ⟨before, a, after, s', rfl, hbefore, ha⟩
    rw [List.foldlM_append, hbefore, ok_bind, List.foldlM_cons]
    exact bind_eq_error.mpr (.inl ha)

/-- A computation ends in a value with the one property or in an error with the
other. -/
def Ends (Q : α → Prop) (E : ε → Prop) : Except ε α → Prop
  | .ok a => Q a
  | .error e => E e

theorem Ends.mono {Q Q' : α → Prop} {E : ε → Prop} {x : Except ε α} (hends : Ends Q E x)
    (himp : ∀ a, Q a → Q' a) : Ends Q' E x := by
  cases x with
  | ok a => exact himp a hends
  | error e => exact hends

theorem Ends.bind {Q : α → Prop} {Q' : β → Prop} {E : ε → Prop} {x : Except ε α}
    {f : α → Except ε β} (hends : Ends Q E x) (hnext : ∀ a, Q a → Ends Q' E (f a)) :
    Ends Q' E (x >>= f) := by
  cases x with
  | ok a => exact hnext a hends
  | error e => exact hends

/-- A loop over a list that keeps an invariant, completes one element in each
round and undoes no completed element completes them all. -/
theorem Ends.foldlM {I : σ → Prop} {D : α → σ → Prop} {E : ε → Prop}
    {f : σ → α → Except ε σ} {l : List α} {s : σ}
    (hround : ∀ a ∈ l, ∀ s, I s →
      Ends (fun s' => I s' ∧ D a s' ∧ ∀ b, D b s → D b s') E (f s a))
    (hstart : I s) :
    Ends (fun s' => I s' ∧ (∀ a ∈ l, D a s') ∧ ∀ b, D b s → D b s') E
      (l.foldlM f s) := by
  induction l generalizing s with
  | nil => exact ⟨hstart, fun a ha => absurd ha List.not_mem_nil, fun _ h => h⟩
  | cons a l ih =>
    rw [List.foldlM_cons]
    apply (hround a List.mem_cons_self s hstart).bind
    rintro s' ⟨hI, hdone, hkeep⟩
    apply (ih (fun b hb => hround b (List.mem_cons_of_mem a hb)) hI).mono
    rintro s'' ⟨hI', hall, hkeep'⟩
    refine ⟨hI', ?_, fun b hb => hkeep' b (hkeep b hb)⟩
    intro b hb
    rcases List.mem_cons.mp hb with rfl | hb
    · exact hkeep' _ hdone
    · exact hall b hb

end Base
