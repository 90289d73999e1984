import CppServer.Base.Machine

namespace Base

/-- A piece of code that works on data of type `D`. A call `C` starts at its first place `P`, which
carries the locals; a step goes on to the next place, ends the code or fails. -/
structure Section (C P D F : Type) where
  enter : C → P
  step : P → D → Except F (D × Option P)

namespace Section

variable {C P D F : Type} {code : Section C P D F} {c : C} {d d₁ d₂ : D} {p p' : P}

/-- Where the code of a call can be that began with the data `d`, if nobody else works on it. -/
inductive Reaches (code : Section C P D F) (c : C) (d : D) : P → D → Prop
  | enter : Reaches code c d (code.enter c) d
  | step {p p' : P} {d₁ d₂ : D} :
      Reaches code c d p d₁ → code.step p d₁ = .ok (d₂, some p') → Reaches code c d p' d₂

/-- The code of a call as one step: it takes `d` to `d'`. -/
def Completes (code : Section C P D F) (c : C) (d d' : D) : Prop :=
  ∃ p d₁, code.Reaches c d p d₁ ∧ code.step p d₁ = .ok (d', none)

/-- The rule for all that a call can reach. -/
theorem Reaches.invariant {Q : P → D → Prop} (hreach : code.Reaches c d p d₁)
    (hstart : Q (code.enter c) d)
    (hkeep : ∀ p d₁ p' d₂, Q p d₁ → code.step p d₁ = .ok (d₂, some p') → Q p' d₂) : Q p d₁ := by
  induction hreach with
  | enter => exact hstart
  | step _ hstep ih => exact hkeep _ _ _ _ ih hstep

/-- The code of each call does as one step what the machine does. -/
def Implements (code : Section C P D F) (A : Machine D C) : Prop :=
  ∀ c d d', code.Completes c d d' → A.step d c = some d'

end Section

end Base
