import CppServer.RefCounting.System

namespace CppServer.RefCounting

open Function Base

variable {T V O : Type}

/-- The variable that the operation destroys. -/
def Pc.destroys : Pc V O → Option V
  | .release x .destroy | .clear x .destroy => some x
  | .releaseRef _ (some (x, .destroy)) | .deleteThis _ (some (x, .destroy)) => some x
  | _ => none

/-- What a place in the code says of the pointers in the operation's hands. -/
def Pc.Holds (ptr : V → Option O) (initial created : O → Bool) : Pc V O → Prop
  | .idle | .compare _ _ | .release _ _ | .clear _ _ | .deleteThis _ none => True
  | .releaseRef o (some (x, _)) | .deleteThis o (some (x, _)) => ptr x = some o
  | .releaseRef o none => initial o = true
  | .set x _ | .take x _ => ptr x = none
  | .setRaw x p => ptr x = none ∧ ∀ o, p = some o → created o = true
  | .addRef x o none => ptr x = some o
  | .addRef x o (some rhs) => ptr x = some o ∧ ptr rhs = some o ∧ x ≠ rhs
  | .drop x rhs => ptr x = ptr rhs ∧ (x = rhs → ptr x = none)

theorem Pc.Holds.congr {ptr ptr' : V → Option O} {initial initial' created created' : O → Bool}
    {pc : Pc V O} (hholds : pc.Holds ptr initial created) (hptr : ∀ x ∈ pc.vars, ptr' x = ptr x)
    (hinitial : ∀ o, pc = .releaseRef o none → initial' o = initial o)
    (hcreated : ∀ o, created o = true → created' o = true) : pc.Holds ptr' initial' created' := by
  cases pc with
  | releaseRef o caller =>
    cases caller with
    | none => exact (hinitial o rfl).trans hholds
    | some caller => exact (hptr _ List.mem_cons_self).trans hholds
  | deleteThis o caller =>
    cases caller with
    | none => trivial
    | some caller => exact (hptr _ List.mem_cons_self).trans hholds
  | set x rhs => exact (hptr x List.mem_cons_self).trans hholds
  | take x rhs => exact (hptr x List.mem_cons_self).trans hholds
  | setRaw x p =>
    exact ⟨(hptr x List.mem_cons_self).trans hholds.1, fun o ho => hcreated o (hholds.2 o ho)⟩
  | addRef x o rhs =>
    cases rhs with
    | none => exact (hptr x List.mem_cons_self).trans hholds
    | some rhs =>
      have hrhs := hptr rhs (List.mem_cons_of_mem _ List.mem_cons_self)
      exact ⟨(hptr x List.mem_cons_self).trans hholds.1, hrhs.trans hholds.2.1, hholds.2.2⟩
  | drop x rhs =>
    have hrhs := hptr rhs (List.mem_cons_of_mem _ List.mem_cons_self)
    simp only [Pc.Holds]
    rw [hptr x List.mem_cons_self, hrhs]
    exact hholds
  | _ => trivial

theorem Pc.mem_vars_of_destroys {pc : Pc V O} {x : V} (hdestroys : pc.destroys = some x) :
    x ∈ pc.vars := by
  cases pc with
  | release y next | clear y next =>
    cases next with
    | destroy =>
      obtain rfl := Option.some.inj hdestroys
      exact List.mem_cons_self
    | _ => cases hdestroys
  | releaseRef o caller | deleteThis o caller =>
    cases caller with
    | none => cases hdestroys
    | some caller =>
      obtain ⟨y, next⟩ := caller
      cases next with
      | destroy =>
        obtain rfl := Option.some.inj hdestroys
        exact List.mem_cons_self
      | _ => cases hdestroys
  | _ => cases hdestroys

theorem Next.vars_pc (x : V) (next : Next V) : ∀ y ∈ (next.pc x : Pc V O).vars, y ∈ x :: next.vars := by
  cases next with
  | copy rhs => exact fun y hy => hy
  | move rhs => exact fun y hy => hy
  | destroy => exact fun y hy => absurd hy List.not_mem_nil

theorem vars_returned (o : O) (caller : Option (V × Next V)) :
    (returned caller : Pc V O).vars = (Pc.releaseRef o caller).vars := by
  cases caller with
  | none => rfl
  | some caller => rfl

theorem Next.holds_pc {ptr : V → Option O} {initial created : O → Bool} {x : V} (next : Next V)
    (hnull : ptr x = none) : (next.pc x : Pc V O).Holds ptr initial created := by
  cases next with
  | copy rhs => exact hnull
  | move rhs => exact hnull
  | destroy => trivial

theorem holds_returned {ptr : V → Option O} {initial created : O → Bool}
    (caller : Option (V × Next V)) : (returned caller : Pc V O).Holds ptr initial created := by
  cases caller with
  | none => trivial
  | some caller => trivial

variable [DecidableEq V] [DecidableEq O] {h h' : Heap V O} {pc pc' : Pc V O}

/-- A step uses no further variables. -/
theorem vars_step (hcode : RefCounting.step h pc = some (h', pc')) : ∀ x ∈ pc'.vars, x ∈ pc.vars := by
  cases pc with
  | idle =>
    cases hcode
    exact fun x hx => hx
  | compare x rhs =>
    simp only [RefCounting.step] at hcode
    split at hcode <;> cases hcode
    · exact fun y hy => hy
    · exact fun y hy => absurd hy List.not_mem_nil
  | release x next =>
    simp only [RefCounting.step] at hcode
    split at hcode <;> cases hcode
    · exact fun y hy => hy
    · exact next.vars_pc x
  | releaseRef o caller =>
    simp only [RefCounting.step] at hcode
    split at hcode <;> cases hcode
    split
    · cases caller <;> exact fun y hy => hy
    · rw [vars_returned o]
      exact fun y hy => hy
  | deleteThis o caller =>
    cases hcode
    rw [vars_returned o]
    cases caller <;> exact fun y hy => hy
  | clear x next =>
    cases hcode
    exact next.vars_pc x
  | set x rhs =>
    cases hcode
    split
    · exact fun y hy => hy
    · exact fun y hy => absurd hy List.not_mem_nil
  | setRaw x p =>
    cases hcode
    cases p with
    | some o => exact fun y hy => hy
    | none => exact fun y hy => absurd hy List.not_mem_nil
  | addRef x o rhs =>
    simp only [RefCounting.step] at hcode
    split at hcode <;> cases hcode
    exact fun y hy => absurd hy List.not_mem_nil
  | take x rhs =>
    cases hcode
    exact fun y hy => hy
  | drop x rhs =>
    cases hcode
    exact fun y hy => absurd hy List.not_mem_nil

/-- A step changes the pointers of the variables that it uses only. -/
theorem ptr_step (hcode : RefCounting.step h pc = some (h', pc')) {x : V} (hx : x ∉ pc.vars) :
    h'.ptr x = h.ptr x := by
  cases pc with
  | idle =>
    cases hcode
    rfl
  | compare y rhs =>
    simp only [RefCounting.step] at hcode
    split at hcode <;> cases hcode <;> rfl
  | release y next =>
    simp only [RefCounting.step] at hcode
    split at hcode <;> cases hcode <;> rfl
  | releaseRef o caller =>
    simp only [RefCounting.step] at hcode
    split at hcode <;> cases hcode
    rfl
  | addRef y o rhs =>
    simp only [RefCounting.step] at hcode
    split at hcode <;> cases hcode
    rfl
  | deleteThis o caller =>
    cases hcode
    rfl
  | clear y next | set y rhs | setRaw y p | take y rhs =>
    cases hcode
    exact update_of_ne (List.ne_of_not_mem_cons hx) _ _
  | drop y rhs =>
    cases hcode
    exact update_of_ne (List.ne_of_not_mem_cons (List.not_mem_of_not_mem_cons hx)) _ _

/-- A step leads to a place whose pointers are as it says. -/
theorem Pc.Holds.step {initial created : O → Bool} (hholds : pc.Holds h.ptr initial created)
    (hcode : RefCounting.step h pc = some (h', pc')) :
    pc'.Holds h'.ptr (pc.left initial) created := by
  cases pc with
  | idle =>
    cases hcode
    trivial
  | compare x rhs =>
    simp only [RefCounting.step] at hcode
    split at hcode <;> cases hcode <;> trivial
  | release x next =>
    simp only [RefCounting.step] at hcode
    split at hcode
    case h_1 o ho =>
      cases hcode
      exact ho
    case h_2 hnull =>
      cases hcode
      exact next.holds_pc hnull
  | releaseRef o caller =>
    simp only [RefCounting.step] at hcode
    split at hcode <;> cases hcode
    split
    · cases caller with
      | none => trivial
      | some caller => exact hholds
    · exact holds_returned caller
  | deleteThis o caller =>
    cases hcode
    exact holds_returned caller
  | clear x next =>
    cases hcode
    exact next.holds_pc (update_self ..)
  | set x rhs =>
    cases hcode
    cases hrhs : h.ptr rhs with
    | none => trivial
    | some o =>
      have hne : x ≠ rhs := by
        rintro rfl
        rw [show h.ptr x = none from hholds] at hrhs
        cases hrhs
      exact ⟨update_self .., (update_of_ne hne.symm _ _).trans hrhs, hne⟩
  | setRaw x p =>
    cases hcode
    cases p with
    | none => trivial
    | some o => exact update_self ..
  | addRef x o rhs =>
    simp only [RefCounting.step] at hcode
    split at hcode <;> cases hcode
    trivial
  | take x rhs =>
    cases hcode
    simp only [Pc.Holds, update_self]
    by_cases heq : rhs = x
    · rw [heq, update_self]
      exact ⟨rfl, fun _ => hholds⟩
    · rw [update_of_ne heq]
      exact ⟨rfl, fun h => absurd h.symm heq⟩
  | drop x rhs =>
    cases hcode
    trivial

/-- Every pointer after a step was one before it, or the raw pointer. -/
theorem pointed_step {created : O → Bool} {initial : O → Bool} (hholds : pc.Holds h.ptr initial created)
    (hpointed : ∀ x o, h.ptr x = some o → created o = true)
    (hcode : RefCounting.step h pc = some (h', pc')) {x : V} {o : O} (hptr : h'.ptr x = some o) :
    created o = true := by
  have hupdate {y : V} {p : Option O} (hp : p = some o → created o = true)
      (hx : update h.ptr y p x = some o) : created o = true := by
    by_cases heq : x = y
    · rw [heq, update_self] at hx
      exact hp hx
    · rw [update_of_ne heq] at hx
      exact hpointed x o hx
  cases pc with
  | compare y rhs =>
    simp only [RefCounting.step] at hcode
    split at hcode <;> cases hcode <;> exact hpointed x o hptr
  | release y next =>
    simp only [RefCounting.step] at hcode
    split at hcode <;> cases hcode <;> exact hpointed x o hptr
  | releaseRef o' caller =>
    simp only [RefCounting.step] at hcode
    split at hcode <;> cases hcode
    exact hpointed x o hptr
  | addRef y o' rhs =>
    simp only [RefCounting.step] at hcode
    split at hcode <;> cases hcode
    exact hpointed x o hptr
  | idle | deleteThis o' caller =>
    cases hcode
    exact hpointed x o hptr
  | clear y next | drop y rhs =>
    cases hcode
    exact hupdate (p := none) nofun hptr
  | set y rhs | take y rhs =>
    cases hcode
    exact hupdate (hpointed rhs o) hptr
  | setRaw y p =>
    cases hcode
    exact hupdate (hholds.2 o) hptr

/-- A destructor keeps its variable until it has made it null. -/
theorem destroys_step (hcode : RefCounting.step h pc = some (h', pc')) {x : V}
    (hdestroys : pc.destroys = some x) :
    pc'.destroys = some x ∨ pc'.vars = [] ∧ h'.ptr x = none := by
  cases pc with
  | release y next =>
    cases next with
    | destroy =>
      obtain rfl := Option.some.inj hdestroys
      simp only [RefCounting.step] at hcode
      split at hcode
      case h_1 =>
        cases hcode
        exact .inl rfl
      case h_2 hnull =>
        cases hcode
        exact .inr ⟨rfl, hnull⟩
    | _ => cases hdestroys
  | clear y next =>
    cases next with
    | destroy =>
      obtain rfl := Option.some.inj hdestroys
      cases hcode
      exact .inr ⟨rfl, update_self ..⟩
    | _ => cases hdestroys
  | releaseRef o caller =>
    simp only [RefCounting.step] at hcode
    split at hcode <;> cases hcode
    cases caller with
    | none => cases hdestroys
    | some caller =>
      obtain ⟨y, next⟩ := caller
      left
      split <;> cases next <;> exact hdestroys
  | deleteThis o caller =>
    cases hcode
    cases caller with
    | none => cases hdestroys
    | some caller =>
      obtain ⟨y, next⟩ := caller
      cases next <;> exact .inl hdestroys
  | _ => cases hdestroys

/-- Only the creator's call begins at `ReleaseRef`. -/
theorem ne_releaseRef_step (hcode : RefCounting.step h pc = some (h', pc')) (o : O) :
    pc' ≠ .releaseRef o none := by
  have hnext (x : V) (next : Next V) : (next.pc x : Pc V O) ≠ .releaseRef o none := by
    cases next <;> nofun
  have hreturned (caller : Option (V × Next V)) : returned caller ≠ .releaseRef o none := by
    cases caller <;> nofun
  cases pc with
  | compare x rhs =>
    simp only [RefCounting.step] at hcode
    split at hcode <;> cases hcode <;> nofun
  | release x next =>
    simp only [RefCounting.step] at hcode
    split at hcode <;> cases hcode
    · nofun
    · exact hnext x next
  | releaseRef o' caller =>
    simp only [RefCounting.step] at hcode
    split at hcode <;> cases hcode
    split
    · nofun
    · exact hreturned caller
  | addRef x o' rhs =>
    simp only [RefCounting.step] at hcode
    split at hcode <;> cases hcode
    nofun
  | set x rhs =>
    cases hcode
    split <;> nofun
  | setRaw x p =>
    cases hcode
    cases p <;> nofun
  | deleteThis o' caller =>
    cases hcode
    exact hreturned caller
  | clear x next =>
    cases hcode
    exact hnext x next
  | idle | take x rhs | drop x rhs =>
    cases hcode
    nofun

end CppServer.RefCounting
