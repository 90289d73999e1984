import CppServer.Base.Anchored

open Base.Graph Relation

namespace Base

/-- Parties each of which has some resources and waits for one at most: `t` waits for `u`. -/
def WaitsFor {T L : Type} (wants : T → Option L) (has : T → L → Prop) (t u : T) : Prop :=
  ∃ l, wants t = some l ∧ has u l

namespace WaitsFor

variable {T L : Type} {wants : T → Option L} {has : T → L → Prop} {before : L → L → Prop}

/-- Along a chain of waiting parties the resources follow one another. -/
theorem transGen_before (hordered : ∀ u l l', has u l → wants u = some l' → before l l')
    {t u : T} (hpath : TransGen (WaitsFor wants has) t u) {l' : L} (hwants : wants u = some l') :
    ∃ l, wants t = some l ∧ TransGen before l l' := by
  induction hpath generalizing l' with
  | single h =>
    obtain ⟨l, hl, hhas⟩ := h
    exact ⟨l, hl, .single (hordered _ l l' hhas hwants)⟩
  | tail _ h ih =>
    obtain ⟨middle, hmiddle, hhas⟩ := h
    obtain ⟨l, hl, hpath⟩ := ih hmiddle
    exact ⟨l, hl, hpath.tail (hordered _ middle l' hhas hwants)⟩

/-- Whoever waits only for what comes after all that it has waits in no circle. -/
theorem acyclic (hbefore : Acyclic before)
    (hordered : ∀ u l l', has u l → wants u = some l' → before l l') :
    Acyclic (WaitsFor wants has) := by
  intro t hcycle
  obtain ⟨_, ⟨l, hl, -⟩, -⟩ := TransGen.head'_iff.mp hcycle
  obtain ⟨l', hl', hpath⟩ := transGen_before hordered hcycle hl
  rw [hl] at hl'
  cases hl'
  exact hbefore l hpath

/-- Among finitely many parties that wait in no circle, each waiting one waits, through others
perhaps, for one that does not wait. -/
theorem exists_free [Finite T] (hacyclic : Acyclic (WaitsFor wants has))
    (hheld : ∀ t l, wants t = some l → ∃ u, has u l) {t : T} (ht : wants t ≠ none) :
    ∃ u, TransGen (WaitsFor wants has) t u ∧ wants u = none := by
  have hreverse : Acyclic fun u t => WaitsFor wants has t u := fun t hcycle =>
    hacyclic t (transGen_swap.mp hcycle)
  induction t using hreverse.wellFounded.induction with
  | _ t ih =>
    obtain ⟨l, hl⟩ := Option.ne_none_iff_exists'.mp ht
    obtain ⟨u, hu⟩ := hheld t l hl
    have hedge : TransGen (WaitsFor wants has) t u := .single ⟨l, hl, hu⟩
    by_cases hfree : wants u = none
    · exact ⟨u, hedge, hfree⟩
    · obtain ⟨v, hv, hfree⟩ := ih u ⟨l, hl, hu⟩ hfree
      exact ⟨v, hedge.trans hv, hfree⟩

end WaitsFor

end Base
