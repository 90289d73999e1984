import Mathlib

namespace Base

open Function

variable {W E : Type}

/-- Tokens in a pool and in the hands of holders, one at most in each hand: no token is
in two places. -/
structure Custody (pool : List E) (hand : W → Option E) : Prop where
  once : pool.Nodup
  apart : ∀ w e, hand w = some e → e ∉ pool
  sole : ∀ w w' e, hand w = some e → hand w' = some e → w = w'

namespace Custody

/-- A token is somewhere. -/
def Known (pool : List E) (hand : W → Option E) (e : E) : Prop :=
  e ∈ pool ∨ ∃ w, hand w = some e

variable {pool pool' : List E} {hand : W → Option E} {w : W} {e : E}

/-- A token that is somewhere is in one place: in the pool once and in no hand, or in
exactly one hand. -/
theorem place [DecidableEq E] (hc : Custody pool hand) (hknown : Known pool hand e) :
    (pool.count e = 1 ∧ ∀ w, hand w ≠ some e) ∨ (pool.count e = 0 ∧ ∃! w, hand w = some e) := by
  rcases hknown with hmem | ⟨w, hw⟩
  · exact .inl ⟨List.count_eq_one_of_mem hc.once hmem, fun w hw => hc.apart w e hw hmem⟩
  · exact .inr ⟨List.count_eq_zero_of_not_mem (hc.apart w e hw), w, hw, fun v hv => hc.sole v w e hv hw⟩

variable [DecidableEq W]

/-- What a holder has does not matter to the others. -/
theorem hand_of_update {v : W} {o : Option E} (hv : update hand w o v = some e) :
    (v = w ∧ o = some e) ∨ (v ≠ w ∧ hand v = some e) := by
  rw [update_apply] at hv
  split at hv
  case isTrue h => exact .inl ⟨h, hv⟩
  case isFalse h => exact .inr ⟨h, hv⟩

/-- A holder puts its token into the pool. -/
theorem put (hc : Custody pool hand) (hw : hand w = some e) (hperm : pool'.Perm (e :: pool)) :
    Custody pool' (update hand w none) := by
  refine ⟨hperm.nodup_iff.mpr (hc.once.cons (hc.apart w e hw)), fun v e' hv => ?_,
    fun v v' e' hv hv' => ?_⟩
  · obtain ⟨-, h⟩ | ⟨hne, hv⟩ := hand_of_update hv
    · cases h
    · rw [hperm.mem_iff, List.mem_cons, not_or]
      refine ⟨fun he => hne (hc.sole v w e' hv (he ▸ hw)), hc.apart v e' hv⟩
  · obtain ⟨-, h⟩ | ⟨-, hv⟩ := hand_of_update hv
    · cases h
    · obtain ⟨-, h⟩ | ⟨-, hv'⟩ := hand_of_update hv'
      · cases h
      · exact hc.sole v v' e' hv hv'

/-- A token that is nowhere comes into an empty hand. -/
theorem gain (hc : Custody pool hand) (hnew : ¬ Known pool hand e) :
    Custody pool (update hand w (some e)) := by
  refine ⟨hc.once, fun v e' hv => ?_, fun v v' e' hv hv' => ?_⟩
  · obtain ⟨-, h⟩ | ⟨-, hv⟩ := hand_of_update hv
    · cases h
      exact fun hmem => hnew (.inl hmem)
    · exact hc.apart v e' hv
  · obtain ⟨hvw, h⟩ | ⟨-, hv⟩ := hand_of_update hv
    · cases h
      obtain ⟨hvw', -⟩ | ⟨-, hv'⟩ := hand_of_update hv'
      · rw [hvw, hvw']
      · exact absurd (.inr ⟨v', hv'⟩) hnew
    · obtain ⟨-, h⟩ | ⟨-, hv'⟩ := hand_of_update hv'
      · cases h
        exact absurd (.inr ⟨v, hv⟩) hnew
      · exact hc.sole v v' e' hv hv'

/-- A holder takes a token from the pool. -/
theorem take (hc : Custody pool hand) (hperm : pool.Perm (e :: pool')) :
    Custody pool' (update hand w (some e)) := by
  have hcons : (e :: pool').Nodup := hperm.nodup_iff.mp hc.once
  have hrest : Custody pool' hand :=
    ⟨hcons.of_cons, fun v e' hv hmem => hc.apart v e' hv (hperm.mem_iff.mpr (.tail _ hmem)), hc.sole⟩
  apply hrest.gain
  rintro (hmem | ⟨v, hv⟩)
  · exact hcons.notMem hmem
  · exact hc.apart v e hv (hperm.mem_iff.mpr (.head _))

/-- Tokens stay known while the pool and one hand together keep theirs. -/
theorem Known.update {e' : E} {o : Option E} (hknown : Known pool hand e')
    (hpool : e' ∈ pool → e' ∈ pool' ∨ o = some e') (hhand : hand w = some e' → e' ∈ pool' ∨ o = some e') :
    Known pool' (update hand w o) e' := by
  have hkept (h : e' ∈ pool' ∨ o = some e') : Known pool' (Function.update hand w o) e' := by
    rcases h with hmem | ho
    · exact .inl hmem
    · exact .inr ⟨w, by rw [update_self, ho]⟩
  rcases hknown with hmem | ⟨v, hv⟩
  · exact hkept (hpool hmem)
  · by_cases hvw : v = w
    · exact hkept (hhand (hvw ▸ hv))
    · exact .inr ⟨v, by rw [update_of_ne hvw, hv]⟩

/-- What is known after a change was known before or came with it. -/
theorem Known.of_update {e' : E} {o : Option E} (hknown : Known pool' (Function.update hand w o) e')
    (hpool : e' ∈ pool' → Known pool hand e') (ho : o = some e' → Known pool hand e') :
    Known pool hand e' := by
  rcases hknown with hmem | ⟨v, hv⟩
  · exact hpool hmem
  · obtain ⟨-, h⟩ | ⟨-, hv⟩ := hand_of_update hv
    · exact ho h
    · exact .inr ⟨v, hv⟩

end Custody

end Base
