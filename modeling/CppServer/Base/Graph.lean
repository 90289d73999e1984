import Mathlib

namespace Base.Graph

open Relation

variable {α β : Type} {r s : α → α → Prop}

/-- No element reaches itself in one or more steps. -/
def Acyclic (r : α → α → Prop) : Prop := ∀ a, ¬ TransGen r a a

theorem Acyclic.of_le_transGen (hle : ∀ a b, r a b → TransGen s a b) (hacyclic : Acyclic s) :
    Acyclic r :=
  fun a hcycle => hacyclic a (TransGen.closed hle a a hcycle)

/-- Renaming the elements: a partial map defined along every step that keeps the
steps keeps the paths. -/
theorem transGen_of_partialMap {t : β → β → Prop} {f : α → Option β}
    (hmap : ∀ a b, r a b → ∃ x y, f a = some x ∧ f b = some y ∧ t x y) {a b : α}
    (hpath : TransGen r a b) : ∃ x y, f a = some x ∧ f b = some y ∧ TransGen t x y := by
  induction hpath with
  | single h =>
    obtain ⟨x, y, hx, hy, hstep⟩ := hmap _ _ h
    exact ⟨x, y, hx, hy, .single hstep⟩
  | tail _ h ih =>
    obtain ⟨x, y, hx, hy, hpath⟩ := ih
    obtain ⟨y', z, hy', hz, hstep⟩ := hmap _ _ h
    rw [hy] at hy'
    cases hy'
    exact ⟨x, z, hx, hz, hpath.tail hstep⟩

theorem Acyclic.of_partialMap {t : β → β → Prop} {f : α → Option β}
    (hmap : ∀ a b, r a b → ∃ x y, f a = some x ∧ f b = some y ∧ t x y) (hacyclic : Acyclic t) :
    Acyclic r := by
  intro a hcycle
  obtain ⟨x, y, hx, hy, hpath⟩ := transGen_of_partialMap hmap hcycle
  rw [hx] at hy
  cases hy
  exact hacyclic x hpath

/-- Along a list in which each element is the next one or a step after it,
every element reaches the first. -/
theorem reflTransGen_of_isChain {first a : α} {as : List α}
    (hchain : (first :: as).IsChain fun upper lower => upper = lower ∨ r lower upper)
    (ha : a ∈ first :: as) : ReflTransGen r a first := by
  induction as generalizing first with
  | nil =>
    cases List.mem_singleton.mp ha
    exact .refl
  | cons next as ih =>
    obtain ⟨hnext, hchain⟩ := List.isChain_cons_cons.mp hchain
    rcases List.mem_cons.mp ha with rfl | ha
    · exact .refl
    · rcases hnext with rfl | hstep
      · exact ih hchain ha
      · exact (ih hchain ha).tail hstep

/-- Steps that go up in a strict order close no cycle. -/
theorem acyclic_of_lt [Preorder β] (rank : α → β) (hlt : ∀ a b, r a b → rank a < rank b) :
    Acyclic r := by
  have hrank : ∀ a b, TransGen r a b → rank a < rank b := by
    intro a b h
    induction h with
    | single h => exact hlt _ _ h
    | tail _ h ih => exact ih.trans (hlt _ _ h)
  exact fun a hcycle => lt_irrefl _ (hrank a a hcycle)

/-- Two edges close no cycle unless each leads back to the other. -/
theorem acyclic_of_two_edges {p q u v : α}
    (htwo : ∀ x y, r x y → x ≠ y ∧ (x = p ∧ y = q ∨ x = u ∧ y = v))
    (hopen : ¬ (p = v ∧ q = u ∧ p ≠ q)) : Acyclic r := by
  classical
  by_cases hpq : p = q
  · apply acyclic_of_lt fun x => if x = v then 1 else 0
    intro x y hxy
    obtain ⟨hne, ⟨rfl, rfl⟩ | ⟨rfl, rfl⟩⟩ := htwo x y hxy
    · exact absurd hpq hne
    · rw [if_neg hne, if_pos rfl]
      exact Nat.zero_lt_one
  · by_cases hpv : p = v
    · have hqu : q ≠ u := fun h => hopen ⟨hpv, h, hpq⟩
      apply acyclic_of_lt fun x => if x = u then 0 else if x = p then 1 else 2
      intro x y hxy
      obtain ⟨hne, ⟨rfl, rfl⟩ | ⟨rfl, rfl⟩⟩ := htwo x y hxy
      · rw [if_neg hqu, if_neg hne.symm, if_pos rfl]
        split <;> omega
      · rw [if_pos rfl, if_neg hne.symm, if_pos hpv.symm]
        exact Nat.zero_lt_one
    · apply acyclic_of_lt fun x => if x = p then 0 else if x = u then 1 else 2
      intro x y hxy
      obtain ⟨hne, ⟨rfl, rfl⟩ | ⟨rfl, rfl⟩⟩ := htwo x y hxy
      · rw [if_pos rfl, if_neg hne.symm]
        split <;> omega
      · rw [if_neg (Ne.symm hpv), if_neg hne.symm, if_pos rfl]
        split <;> omega

/-- Paths do not leave a set that no step leaves. -/
theorem transGen_mem {closed : α → Prop} (hclosed : ∀ a b, closed a → r a b → closed b) {a b : α}
    (ha : closed a) (hpath : TransGen r a b) : closed b := by
  induction hpath with
  | single h => exact hclosed _ _ ha h
  | tail _ h ih => exact hclosed _ _ ih h

/-- An element outside a closed set, all of whose steps lead into it, is on no
cycle. -/
theorem not_cycle_of_enters {closed : α → Prop} (hclosed : ∀ a b, closed a → r a b → closed b)
    {a : α} (hout : ¬ closed a) (henters : ∀ b, r a b → closed b) : ¬ TransGen r a a := by
  intro hcycle
  obtain ⟨b, hab, hba⟩ := TransGen.head'_iff.mp hcycle
  rcases reflTransGen_iff_eq_or_transGen.mp hba with heq | hba
  · exact hout (heq ▸ henters b hab)
  · exact hout (transGen_mem hclosed (henters b hab) hba)

/-- The edges of a cycle written against their direction: each edge starts
where the one before it in the list ends up when walked backwards, from `first`
to `last`, and no element is the source of two of them. -/
structure BackwardWalk (r : α → α → Prop) (first last : α) (edges : List (α × α)) : Prop where
  steps : ∀ e ∈ edges, r e.1 e.2
  linked : edges.IsChain fun e e' => e'.2 = e.1
  head : edges.head?.map Prod.snd = some first
  last : edges.getLast?.map Prod.fst = some last
  nodup : (edges.map Prod.fst).Nodup

theorem BackwardWalk.cons {first mid last : α} {edges : List (α × α)}
    (hwalk : BackwardWalk r mid last edges) (hstep : r mid first)
    (hfresh : mid ∉ edges.map Prod.fst) : BackwardWalk r first last ((mid, first) :: edges) := by
  obtain ⟨hsteps, hlinked, hhead, hlast, hnodup⟩ := hwalk
  cases edges with
  | nil => cases hhead
  | cons e edges =>
    refine ⟨?_, ?_, rfl, hlast, List.nodup_cons.mpr ⟨hfresh, hnodup⟩⟩
    · intro e' he'
      rcases List.mem_cons.mp he' with rfl | he'
      · exact hstep
      · exact hsteps e' he'
    · exact List.isChain_cons_cons.mpr ⟨Option.some.inj hhead, hlinked⟩

theorem BackwardWalk.single {first last : α} (hstep : r last first) :
    BackwardWalk r first last [(last, first)] := by
  refine ⟨?_, List.isChain_singleton _, rfl, rfl, List.nodup_singleton _⟩
  intro e he
  cases List.mem_singleton.mp he
  exact hstep

theorem BackwardWalk.transGen {first last : α} {edges : List (α × α)}
    (hwalk : BackwardWalk r first last edges) : TransGen r last first := by
  induction edges generalizing first with
  | nil => cases hwalk.head
  | cons e edges ih =>
    obtain ⟨hsteps, hlinked, hhead, hlast, hnodup⟩ := hwalk
    obtain rfl := Option.some.inj hhead
    have hstep := hsteps e List.mem_cons_self
    cases edges with
    | nil =>
      obtain rfl := Option.some.inj hlast
      exact .single hstep
    | cons e' edges =>
      obtain ⟨hlink, hlinked⟩ := List.isChain_cons_cons.mp hlinked
      refine (ih ⟨fun e he => hsteps e (List.mem_cons_of_mem _ he), hlinked, ?_, hlast,
        (List.nodup_cons.mp hnodup).2⟩).tail hstep
      rw [← hlink]
      rfl

end Base.Graph
