import CppServer.Base.Machine
import CppServer.RefCounting.Collection

namespace CppServer.RefCounting.Heap

open Function Base Base.Graph Relation

/-- An operation of a program. `create` is `new` with a `TSharedPtr` that takes the reference over;
`release` is the destructor of a `TSharedPtr`. -/
inductive Action (S O : Type)
  | create (y : S) (o : O)
  | copyAssign (x rhs : S)
  | moveAssign (x rhs : S)
  | release (x : S)
deriving DecidableEq

/-- Of all pointers that the operation uses. -/
def Action.All {S O : Type} (Q : S → Prop) : Action S O → Prop
  | .create y _ => Q y
  | .copyAssign x rhs | .moveAssign x rhs => Q x ∧ Q rhs
  | .release x => Q x

instance Action.decidableAll {S O : Type} (Q : S → Prop) [DecidablePred Q] :
    (action : Action S O) → Decidable (action.All Q)
  | .create y _ => inferInstanceAs (Decidable (Q y))
  | .copyAssign _ _ | .moveAssign _ _ => inferInstanceAs (Decidable (_ ∧ _))
  | .release x => inferInstanceAs (Decidable (Q x))

theorem Action.All.imp {S O : Type} {Q Q' : S → Prop} {action : Action S O} (hall : action.All Q)
    (himp : ∀ s, Q s → Q' s) : action.All Q' := by
  cases action with
  | create y o => exact himp y hall
  | copyAssign x rhs | moveAssign x rhs => exact ⟨himp x hall.1, himp rhs hall.2⟩
  | release x => exact himp x hall

variable {S O : Type} [Fintype S] [DecidableEq S] [Fintype O] [DecidableEq O] {L : Layout S O}
  {raw : O → ℕ} {fuel : ℕ} {h h' : Heap S O} {x rhs : S} {o : O}

/-- `new`, the constructor of the `TSharedPtr` `y`, and the `ReleaseRef` of the creator, in one
operation. The object's constructors give it null fields and a count of 1, `y` makes it 2 and the
creator 1 again, which is the reference of `y`. -/
def create (L : Layout S O) (h : Heap S O) (y : S) (o : O) : Heap S O where
  ptr s := if L.owner s = some o then none else update h.ptr y (some o) s
  refCount := update h.refCount o 1
  deletes := update h.deletes o 0

/-- An operation takes effect if it does not access a deleted object. An object is created where
none is, and its reference goes to a null pointer. -/
def act (L : Layout S O) (fuel : ℕ) (h : Heap S O) : Action S O → Option (Heap S O)
  | .create y o =>
    if h.deletes o ≠ 0 ∧ h.Accessible L y ∧ h.ptr y = none then some (h.create L y o) else none
  | .copyAssign x rhs => (h.copyAssign L fuel x rhs).toOption
  | .moveAssign x rhs => (h.moveAssign L fuel x rhs).toOption
  | .release x => (h.release L fuel x).toOption

def program (L : Layout S O) (fuel : ℕ) (h₀ : Heap S O) : Machine (Heap S O) (Action S O) where
  start := h₀
  step := act L fuel

omit [Fintype S] [Fintype O] [DecidableEq S] [DecidableEq O] in
theorem ok_of_toOption {result : Except Fault (Heap S O)} (hsome : result.toOption = some h) :
    result = .ok h := by
  cases result with
  | ok final => exact congrArg Except.ok (Option.some.inj hsome)
  | error fault => cases hsome

omit [Fintype S] [Fintype O] [DecidableEq S] [DecidableEq O] in
theorem accessible_of_read {ptr : Option O} (hread : h.read L x = .ok ptr) : h.Accessible L x := by
  unfold read at hread
  split at hread
  case isTrue haccess => exact haccess
  case isFalse => cases hread

omit [Fintype S] [Fintype O] in
/-- The pointers after an object has been created: the new one, and those from before. -/
theorem points_create {y s : S} {q : O} (hnone : h.deletes o ≠ 0) (hy : h.Accessible L y) :
    (h.create L y o).Points L s q ↔ s = y ∧ q = o ∨ s ≠ y ∧ h.Points L s q := by
  have hyo : L.owner y ≠ some o := fun howner => hnone (hy o howner)
  by_cases hso : L.owner s = some o
  · -- the fields of the object are null, and were not there before
    refine iff_of_false (fun hpoints => ?_) ?_
    · have hptr := hpoints.2
      simp only [create, if_pos hso] at hptr
      cases hptr
    · rintro (⟨rfl, -⟩ | ⟨-, hpoints⟩)
      · exact hyo hso
      · exact hnone (hpoints.1 o hso)
  · have haccess : (h.create L y o).Accessible L s ↔ h.Accessible L s := by
      refine forall₂_congr fun c hc => ?_
      have hco : c ≠ o := fun heq => hso (heq ▸ hc)
      simp only [create, update_of_ne hco]
    have hptr : (h.create L y o).ptr s = update h.ptr y (some o) s := if_neg hso
    simp only [Points, haccess, hptr]
    by_cases hsy : s = y
    · subst hsy
      simp [hy, eq_comm]
    · simp [hsy]

omit [Fintype O] in
theorem Collected.create (hcollected : h.Collected L raw) {y : S} (hnone : h.deletes o ≠ 0)
    (hy : h.Accessible L y) (hnull : h.ptr y = none) : (h.create L y o).Collected L raw := by
  have hraw : raw o = 0 := Nat.eq_zero_of_not_pos fun hpos => hnone (hcollected.raw o hpos)
  have hbefore (s : S) (q : O) (hs : h.Points L s q) : s ≠ y ∧ q ≠ o := by
    constructor
    · rintro rfl
      rw [hs.2] at hnull
      cases hnull
    · rintro rfl
      exact hnone (hcollected.sound.live s q hs)
  have hlive {q : O} (hq : (h.create L y o).deletes q = 0) : q = o ∨ q ≠ o ∧ h.deletes q = 0 := by
    by_cases hqo : q = o
    · exact .inl hqo
    · exact .inr ⟨hqo, by simpa only [Heap.create, update_of_ne hqo] using hq⟩
  refine ⟨⟨fun s q hs => ?_, fun q hq => ?_⟩, fun q hq => ?_, fun q hq => ?_⟩
  · rcases (points_create hnone hy).mp hs with ⟨-, rfl⟩ | ⟨-, hs⟩
    · simp [Heap.create]
    · simp only [Heap.create, update_of_ne (hbefore s q hs).2]
      exact hcollected.sound.live s q hs
  · rcases hlive hq with rfl | ⟨hqo, hq⟩
    · have hone : (Finset.univ.filter fun s => (h.create L y q).Points L s q) = {y} := by
        ext s
        rw [Finset.mem_filter, Finset.mem_singleton, points_create hnone hy]
        constructor
        · rintro ⟨-, ⟨rfl, -⟩ | ⟨-, hs⟩⟩
          · rfl
          · exact absurd rfl (hbefore s q hs).2
        · rintro rfl
          exact ⟨Finset.mem_univ s, .inl ⟨rfl, rfl⟩⟩
      rw [hone, hraw]
      simp [Heap.create]
    · have hsame (s : S) : (h.create L y o).Points L s q ↔ h.Points L s q := by
        rw [points_create hnone hy]
        exact ⟨fun hs => hs.elim (fun h => absurd h.2 hqo) And.right,
          fun hs => .inr ⟨(hbefore s q hs).1, hs⟩⟩
      have hcount : (h.create L y o).refCount q = h.refCount q := update_of_ne hqo ..
      simp only [hsame, hcount]
      exact hcollected.sound.counts q hq
  · rcases hlive hq with rfl | ⟨-, hq⟩
    · exact .inr ⟨y, (points_create hnone hy).mpr (.inl ⟨rfl, rfl⟩)⟩
    · refine (hcollected.held q hq).imp_right fun ⟨s, hs⟩ => ⟨s, ?_⟩
      exact (points_create hnone hy).mpr (.inr ⟨(hbefore s q hs).1, hs⟩)
  · have hqo : q ≠ o := by
      rintro rfl
      omega
    simp only [Heap.create, update_of_ne hqo]
    exact hcollected.raw q hq

omit [Fintype S] [Fintype O] in
theorem set_fields (hx : h.Accessible L x) (hset : h.set L x rhs = .ok h') :
    h.Accessible L rhs ∧ h'.ptr = update h.ptr x (h.ptr rhs) ∧ h'.deletes = h.deletes := by
  obtain ⟨ptr, hread, hrest⟩ := bind_eq_ok.mp hset
  have hrhs := accessible_of_read hread
  rw [read_eq hrhs] at hread
  cases hread
  refine ⟨hrhs, ?_⟩
  rw [write_eq hx, ok_bind] at hrest
  cases hptr : h.ptr rhs with
  | none =>
    rw [hptr] at hrest
    cases hrest
    exact ⟨rfl, rfl⟩
  | some q =>
    simp only [hptr, addRef] at hrest
    split at hrest
    case isTrue => cases hrest
    case isFalse =>
      cases hrest
      exact ⟨rfl, rfl⟩

omit [DecidableEq S] [Fintype O] in
/-- The count has room: there are fewer than 2^32 pointers. -/
theorem Collected.room (hcollected : h.Collected L raw)
    (hroom : ∀ o, Fintype.card S + raw o + 1 < 2 ^ 32) (hlive : h.deletes o = 0) : (h.refCount o).toNat + 1 < 2 ^ 32 := by
  have hcount := hcollected.sound.counts o hlive
  have hcard := Finset.card_le_univ (Finset.univ.filter fun s => h.Points L s o)
  have hfew := hroom o
  omega

omit [Fintype O] in
theorem Collected.set (hcollected : h.Collected L raw) (hx : h.Accessible L x) (hnull : h.ptr x = none)
    (hroom : ∀ o, Fintype.card S + raw o + 1 < 2 ^ 32) (hset : h.set L x rhs = .ok h') :
    h'.Collected L raw := by
  obtain ⟨hrhs, hptr, hdeletes⟩ := set_fields hx hset
  obtain ⟨h'', hset', hsound⟩ := hcollected.sound.set hx hnull hrhs fun o ho =>
    hcollected.room hroom (hcollected.sound.live rhs o ⟨hrhs, ho⟩)
  rw [hset] at hset'
  cases hset'
  have haccess (s : S) (hs : h.Accessible L s) : h'.Accessible L s := fun c hc => by
    rw [hdeletes]
    exact hs c hc
  refine ⟨hsound, fun q hq => ?_, fun q hq => ?_⟩
  · rw [hdeletes] at hq
    refine (hcollected.held q hq).imp_right fun ⟨s, hs⟩ => ⟨s, haccess s hs.1, ?_⟩
    have hsx : s ≠ x := by
      rintro rfl
      rw [hs.2] at hnull
      cases hnull
    rw [hptr, update_of_ne hsx]
    exact hs.2
  · rw [hdeletes]
    exact hcollected.raw q hq

omit [Fintype O] in
theorem Collected.take (hcollected : h.Collected L raw) (hx : h.Accessible L x) (hnull : h.ptr x = none)
    (hrhs : h.Accessible L rhs) :
    Collected L raw { h with ptr := update (update h.ptr x (h.ptr rhs)) rhs none } := by
  by_cases hne : rhs = x
  · subst hne
    have hsame : update (update h.ptr rhs (h.ptr rhs)) rhs none = h.ptr := by
      rw [update_eq_self, ← hnull, update_eq_self]
    rw [hsame]
    exact hcollected
  · refine ⟨hcollected.sound.take hx hnull hrhs hne, fun q hq => ?_, hcollected.raw⟩
    refine (hcollected.held q hq).imp_right fun ⟨s, hs⟩ => ?_
    by_cases hsr : s = rhs
    · subst hsr
      refine ⟨x, hx, ?_⟩
      simp only [update_of_ne (Ne.symm hne), update_self]
      exact hs.2
    · have hsx : s ≠ x := by
        rintro rfl
        rw [hs.2] at hnull
        cases hnull
      refine ⟨s, hs.1, ?_⟩
      simp only [update_of_ne hsr, update_of_ne hsx]
      exact hs.2

/-- Whatever operation takes effect, the heap is collected after it. -/
theorem Collected.act (hcollected : h.Collected L raw)
    (hroom : ∀ o, Fintype.card S + raw o + 1 < 2 ^ 32) (hfuel : Fintype.card O ≤ fuel)
    {action : Action S O} (hreached : action.All (h.Reached L raw))
    (hact : h.act L fuel action = some h') : h'.Collected L raw := by
  cases action with
  | create y o =>
    simp only [Heap.act] at hact
    split at hact
    case isTrue hy =>
      cases hact
      exact hcollected.create hy.1 hy.2.1 hy.2.2
    case isFalse => cases hact
  | release x =>
    obtain ⟨final, hrelease, hfinal, -⟩ := hcollected.release hreached hfuel
    simp only [Heap.act, hrelease] at hact
    cases hact
    exact hfinal
  | copyAssign x rhs =>
    obtain ⟨middle, hrelease, hmiddle, hnull, hx, -⟩ := hcollected.release hreached.1 hfuel
    have hok := ok_of_toOption hact
    obtain ⟨ptr, hread, hok⟩ := bind_eq_ok.mp hok
    obtain ⟨ptr', hread', hok⟩ := bind_eq_ok.mp hok
    split at hok
    case isTrue =>
      rw [hrelease, ok_bind] at hok
      exact hmiddle.set hx hnull hroom hok
    case isFalse =>
      cases hok
      exact hcollected
  | moveAssign x rhs =>
    obtain ⟨middle, hrelease, hmiddle, hnull, hx, -⟩ := hcollected.release hreached.1 hfuel
    have hok := ok_of_toOption hact
    rw [moveAssign, hrelease, ok_bind] at hok
    obtain ⟨ptr, hread, -⟩ := bind_eq_ok.mp hok
    have hrhs := accessible_of_read hread
    have hmove := moveAssign_of_release hx hrhs hrelease
    rw [moveAssign, hrelease, ok_bind, hok] at hmove
    cases hmove
    exact hmiddle.take hx hnull hrhs

theorem collected_run {h₀ : Heap S O} (hstart : h₀.Collected L raw)
    (hroom : ∀ o, Fintype.card S + raw o + 1 < 2 ^ 32) (hfuel : Fintype.card O ≤ fuel)
    {actions : List (Action S O)}
    (hrun : (program L fuel h₀).Run (fun h action _ => action.All (h.Reached L raw)) actions h) :
    h.Collected L raw :=
  hrun.invariant hstart fun _ _ _ hcollected hreached hact =>
    hcollected.act hroom hfuel hreached hact

/-- Reference counting collects all but cycles, and nothing too early. After any operations of a
program on the pointers that it gets at, an object is alive exactly if references lead to it from
outside the objects or from a cycle of objects. Without cycles that is what the program can still
get at. A release of any pointer that it gets at goes through, and deletes exactly the objects that
nothing but this pointer keeps. -/
theorem collects_all_but_cycles {h₀ : Heap S O} (hstart : h₀.Collected L raw)
    (hroom : ∀ o, Fintype.card S + raw o + 1 < 2 ^ 32) (hfuel : Fintype.card O ≤ fuel)
    {actions : List (Action S O)}
    (hrun : (program L fuel h₀).Run (fun h action _ => action.All (h.Reached L raw)) actions h) :
    (∀ o, h.deletes o = 0 ↔ h.Kept L raw ∅ o) ∧
      (Acyclic (h.Refers L ∅) →
        ∀ o, h.deletes o = 0 ↔ ∃ b, h.Root L raw ∅ b ∧ ReflTransGen (h.Refers L ∅) b o) ∧
      ∀ x, h.Reached L raw x → ∃ h', h.release L fuel x = .ok h' ∧
        ∀ o, h.deletes o = 0 → (h'.deletes o = 0 ↔ h.Kept L raw {x} o) := by
  have hcollected := collected_run hstart hroom hfuel hrun
  refine ⟨fun o => hcollected.live_iff, fun hacyclic o => ?_, fun x hreached => ?_⟩
  · exact hcollected.live_iff.trans (anchored_iff_of_acyclic hacyclic)
  · obtain ⟨h', hrelease, -, -, -, hdeletes⟩ := hcollected.release hreached hfuel
    exact ⟨h', hrelease, hdeletes⟩

/-- A variable for each of two objects, and a field of each. -/
inductive PairPtr
  | variable (o : Node)
  | field (o : Node)
deriving DecidableEq, Fintype

def pairLayout : Layout PairPtr Node where
  owner
    | .variable _ => none
    | .field o => some o
  fields o := [.field o]
  mem_fields o s := by cases s <;> simp [eq_comm]

/-- There are no objects yet. -/
def nothing : Heap PairPtr Node where
  ptr _ := none
  refCount _ := 0
  deletes _ := 1

/-- Two objects that come to point to each other, and whose variables are destroyed. -/
def leaking : List (Action PairPtr Node) :=
  [.create (.variable .first) .first, .create (.variable .second) .second,
    .copyAssign (.field .first) (.variable .second),
    .copyAssign (.field .second) (.variable .first), .release (.variable .first),
    .release (.variable .second)]

/-- A field of an object to which a variable points is one that the program gets at. -/
def AtHand (L : Layout S O) (h : Heap S O) (s : S) : Prop :=
  ∀ c ∈ L.owner s, ∃ x, L.owner x = none ∧ h.Points L x c

instance (s : S) : Decidable (h.AtHand L s) := inferInstanceAs (Decidable (∀ c ∈ L.owner s, _))

omit [Fintype S] [DecidableEq S] [Fintype O] [DecidableEq O] in
theorem AtHand.reached {s : S} (hhand : h.AtHand L s) : h.Reached L raw s := by
  intro c hc
  obtain ⟨x, hvariable, hx⟩ := hhand c hc
  exact ⟨c, .inr ⟨x, Set.notMem_empty x, hvariable, hx⟩, .refl⟩

theorem collects_all_but_cycles_leaking :
    ∃ h, (program pairLayout 2 nothing).exec nothing leaking = some h ∧
      (∀ o, h.ptr (.variable o) = none) ∧ ∀ o, h.Kept pairLayout (fun _ => 0) ∅ o := by
  have hend : ((program pairLayout 2 nothing).check (fun h action _ => action.All (h.AtHand pairLayout))
      nothing leaking).map (fun h => (h.ptr (.variable .first), h.ptr (.variable .second),
        h.deletes .first, h.deletes .second)) = some (none, none, 0, 0) := by
    decide
  obtain ⟨h, hcheck, hh⟩ := Option.map_eq_some_iff.mp hend
  simp only [Prod.mk.injEq] at hh
  obtain ⟨hfirst, hsecond, hlive, hlive'⟩ := hh
  have hrun : (program pairLayout 2 nothing).Run
      (fun h action _ => action.All (h.Reached pairLayout fun _ => 0)) leaking h :=
    (Machine.run_of_check hcheck).mono fun _ _ _ hall => hall.imp fun _ => AtHand.reached
  have hstart : nothing.Collected pairLayout fun _ => 0 :=
    ⟨⟨by decide, by decide⟩, by decide, by decide⟩
  have hcollects := collects_all_but_cycles hstart (by decide) (le_refl 2) hrun
  refine ⟨h, (Machine.run_of_check hcheck).exec_eq, fun o => ?_, fun o => (hcollects.1 o).mp ?_⟩
  · cases o with
    | first => exact hfirst
    | second => exact hsecond
  · cases o with
    | first => exact hlive
    | second => exact hlive'

end CppServer.RefCounting.Heap
