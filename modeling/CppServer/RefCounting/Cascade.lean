import CppServer.RefCounting.Fields

namespace CppServer.RefCounting

open Function Finset Base

variable {S O : Type}

namespace Heap

/-- What a release only adds to. -/
structure Shrinks (h h' : Heap S O) : Prop where
  ptr : ∀ s, h.ptr s = none → h'.ptr s = none
  deletes : ∀ o, h.deletes o ≠ 0 → h'.deletes o ≠ 0

theorem Shrinks.refl (h : Heap S O) : Shrinks h h := ⟨fun _ => id, fun _ => id⟩

theorem Shrinks.trans {h h' h'' : Heap S O} (hfirst : Shrinks h h') (hlast : Shrinks h' h'') :
    Shrinks h h'' :=
  ⟨fun s hs => hlast.ptr s (hfirst.ptr s hs), fun o ho => hlast.deletes o (hfirst.deletes o ho)⟩

theorem toNat_sub_one {count : BitVec 32} (hpositive : 0 < count.toNat) :
    (count - 1).toNat = count.toNat - 1 := by
  have hbound := count.isLt
  rw [BitVec.toNat_sub]
  change (2 ^ 32 - 1 + count.toNat) % 2 ^ 32 = _
  omega

section Remaining

variable [Fintype O] [DecidableEq O] {D : Finset O} {h h' : Heap S O}

/-- The objects that may still be deleted. -/
def remaining (D : Finset O) (h : Heap S O) : Finset O :=
  univ.filter fun o => h.deletes o = 0 ∧ o ∉ D

theorem Shrinks.remaining_le (hshrinks : Shrinks h h') :
    (h'.remaining D).card ≤ (h.remaining D).card := by
  apply card_le_card
  intro o ho
  obtain ⟨hlive, hD⟩ := (mem_filter.mp ho).2
  refine mem_filter.mpr ⟨mem_univ o, ?_, hD⟩
  by_contra hne
  exact hshrinks.deletes o hne hlive

theorem remaining_insert {o : O} (hlive : h.deletes o = 0) (ho : o ∉ D) :
    (h.remaining (insert o D)).card < (h.remaining D).card := by
  apply card_lt_card
  rw [ssubset_iff_of_subset]
  · exact ⟨o, mem_filter.mpr ⟨mem_univ o, hlive, ho⟩, fun hmem =>
      (mem_filter.mp hmem).2.2 (mem_insert_self o D)⟩
  · intro q hq
    obtain ⟨hlive, hD⟩ := (mem_filter.mp hq).2
    exact mem_filter.mpr ⟨mem_univ q, hlive, fun hmem => hD (mem_insert_of_mem hmem)⟩

end Remaining

variable [DecidableEq S] [Fintype S] [DecidableEq O]

/-- A pointer that is still counted: `U` are those whose `ReleaseRef` has counted down but
that have not been cleared yet. -/
def Counted (L : Layout S O) (U : Finset S) (h : Heap S O) (s : S) (o : O) : Prop :=
  s ∉ U ∧ h.Points L s o

instance (L : Layout S O) (U : Finset S) (h : Heap S O) (s : S) (o : O) :
    Decidable (h.Counted L U s o) := inferInstanceAs (Decidable (_ ∧ _))

def refs (L : Layout S O) (U : Finset S) (h : Heap S O) (o : O) : ℕ :=
  (univ.filter fun s => h.Counted L U s o).card

/-- A pointer that is given up: the variable, or a field of an object in destruction. -/
def Due (L : Layout S O) (p : S) (D : Finset O) (s : S) : Prop :=
  s = p ∨ ∃ c ∈ D, L.owner s = some c

/-- What holds at every point of a release of `p` that began in the heap `h₀`, inside the
destruction of the objects `D`. -/
structure Releasing (L : Layout S O) (raw : O → ℕ) (p : S) (h₀ : Heap S O) (U : Finset S)
    (D : Finset O) (h : Heap S O) : Prop where
  counts : ∀ o, h.deletes o = 0 → (h.refCount o).toNat = h.refs L U o + raw o
  live : ∀ s o, h.Counted L U s o → h.deletes o = 0
  dying : ∀ o ∈ D, h.deletes o = 0 ∧ h.refCount o = 0 ∧ h₀.OnlyThrough L raw p o
  zero : ∀ o, h.deletes o = 0 → h.refCount o = 0 → o ∈ D ∨ h₀.refCount o = 0
  deleted : ∀ o, h.deletes o ≠ 0 → h₀.deletes o ≠ 0 ∨ h₀.OnlyThrough L raw p o
  still : ∀ o, h₀.deletes o ≠ 0 → h.deletes o ≠ 0
  kept : ∀ s, h.ptr s = h₀.ptr s ∨ h.ptr s = none
  gone : ∀ s, h₀.Accessible L s → h.ptr s = h₀.ptr s ∨ s = p ∨
    ∃ c, L.owner s = some c ∧ h₀.OnlyThrough L raw p c

section Counting

variable {L : Layout S O} {U : Finset S} {h : Heap S O} {x : S} {o : O}

/-- A pointer that is no longer counted leaves one reference less to its object. -/
theorem refs_insert (hx : h.Counted L U x o) (q : O) :
    h.refs L (insert x U) q + (if q = o then 1 else 0) = h.refs L U q := by
  have herase : (univ.filter fun s => h.Counted L (insert x U) s q) =
      (univ.filter fun s => h.Counted L U s q).erase x := by
    ext s
    rw [mem_erase, mem_filter, mem_filter]
    simp only [mem_univ, true_and, Counted, mem_insert, not_or, and_assoc]
  unfold refs
  rw [herase]
  by_cases hq : q = o
  · subst hq
    rw [if_pos rfl]
    exact card_erase_add_one (by simpa using hx)
  · rw [if_neg hq, Nat.add_zero, erase_eq_of_notMem]
    intro hmem
    have hpoints := (mem_filter.mp hmem).2
    exact hq (Option.some.inj (hpoints.2.2.symm.trans hx.2.2))

theorem refs_congr {h' : Heap S O} {U' : Finset S} {q : O}
    (hsame : ∀ s, h'.Counted L U' s q ↔ h.Counted L U s q) : h'.refs L U' q = h.refs L U q := by
  unfold refs
  congr 1
  exact filter_congr fun s _ => hsame s

theorem refs_eq_zero_iff {q : O} : h.refs L U q = 0 ↔ ∀ s, ¬ h.Counted L U s q := by
  rw [refs, card_eq_zero, filter_eq_empty_iff]
  simp

end Counting

variable {L : Layout S O} {raw : O → ℕ} {p : S} {h₀ h : Heap S O} {U : Finset S} {D : Finset O}

/-- The `TSharedPtr` outlives its own release: it is a variable, or a field of an object that is
not kept alive only through it. -/
def Stays (L : Layout S O) (raw : O → ℕ) (h : Heap S O) (p : S) : Prop :=
  ∀ c, L.owner p = some c → h.deletes c = 0 ∧ ¬ h.OnlyThrough L raw p c

omit [DecidableEq S] [Fintype S] [DecidableEq O] in
theorem stays_of_variable (hp : L.owner p = none) : h.Stays L raw p := by
  intro c hc
  rw [hp] at hc
  cases hc

/-- A given up pointer can be accessed: its object has not been deleted yet. -/
theorem Releasing.accessible (hrel : Releasing L raw p h₀ U D h) (hp : h₀.Stays L raw p) {s : S}
    (hs : Due L p D s) : h.Accessible L s := by
  intro c hc
  rcases hs with rfl | ⟨d, hd, howner⟩
  · by_contra hdeleted
    obtain ⟨hlive, hkept⟩ := hp c hc
    rcases hrel.deleted c hdeleted with hbefore | honly
    · exact hbefore hlive
    · exact hkept honly
  · cases hc.symm.trans howner
    exact (hrel.dying c hd).1

theorem Releasing.accessible_start (hrel : Releasing L raw p h₀ U D h) {s : S}
    (hs : h.Accessible L s) : h₀.Accessible L s := by
  intro c hc
  by_contra hne
  exact hrel.still c hne (hs c hc)

/-- An object whose last reference is given up was kept alive only through `p`. -/
theorem Releasing.onlyThrough (hrel : Releasing L raw p h₀ U D h)
    (hU : ∀ s ∈ U, Due L p D s) {x : S} {o : O} (hx : h.Counted L U x o) (hdue : Due L p D x)
    (hraw : raw o = 0) (hlast : h.refs L (insert x U) o = 0) : h₀.OnlyThrough L raw p o := by
  have hnone := refs_eq_zero_iff.mp hlast
  have hheld : h₀.Points L x o := by
    refine ⟨hrel.accessible_start hx.2.1, ?_⟩
    rcases hrel.kept x with h | h
    · exact h.symm.trans hx.2.2
    · rw [hx.2.2] at h
      cases h
  have howner (s : S) (hs : h₀.Points L s o) (hsp : s ≠ p) :
      ∃ c, L.owner s = some c ∧ h₀.OnlyThrough L raw p c := by
    rcases hrel.gone s hs.1 with hsame | hgone | hgone
    · by_cases haccess : h.Accessible L s
      · -- a pointer that is there and not counted is given up
        have hmem : s ∈ insert x U := by
          by_contra hmem
          exact hnone s ⟨hmem, haccess, hsame.trans hs.2⟩
        have hs : Due L p D s := by
          rcases mem_insert.mp hmem with rfl | hmem
          · exact hdue
          · exact hU s hmem
        rcases hs with hs | ⟨c, hc, hown⟩
        · exact absurd hs hsp
        · exact ⟨c, hown, (hrel.dying c hc).2.2⟩
      · simp only [Accessible, not_forall] at haccess
        obtain ⟨c, hown, hdeleted⟩ := haccess
        rcases hrel.deleted c hdeleted with h | h
        · exact absurd (hs.1 c hown) h
        · exact ⟨c, hown, h⟩
    · exact absurd hgone hsp
    · exact hgone
  refine .intro o hraw ⟨x, hheld⟩ (fun s hs hsp => ?_) (fun s c hs hsp hc => ?_)
  · obtain ⟨c, hc, -⟩ := howner s hs hsp
    exact ⟨c, hc⟩
  · obtain ⟨d, hd, honly⟩ := howner s hs hsp
    cases hc.symm.trans hd
    exact honly

/-- An object that is pointed to is not in destruction. -/
theorem Releasing.not_dying (hrel : Releasing L raw p h₀ U D h) {x : S} {o : O}
    (hx : h.Counted L U x o) : o ∉ D := by
  intro ho
  have hcount := hrel.counts o (hrel.live x o hx)
  rw [(hrel.dying o ho).2.1] at hcount
  have hsum : h.refs L U o + raw o = 0 := hcount.symm
  have hnone : h.refs L U o = 0 := by omega
  exact refs_eq_zero_iff.mp hnone x hx

/-- The reference of a given up pointer is counted down; the object is in destruction from
then on if it was the last one. -/
theorem Releasing.countDown (hrel : Releasing L raw p h₀ U D h) (hU : ∀ s ∈ U, Due L p D s)
    {x : S} {o : O} (hx : h.Counted L U x o) (hdue : Due L p D x) {D' : Finset O}
    (hD' : D' = if h.refCount o - 1 = 0 then insert o D else D) :
    Releasing L raw p h₀ (insert x U) D'
      { h with refCount := update h.refCount o (h.refCount o - 1) } := by
  have hcount := hrel.counts o (hrel.live x o hx)
  have hinsert := refs_insert hx o
  rw [if_pos rfl] at hinsert
  have hsub : (h.refCount o - 1).toNat = h.refs L (insert x U) o + raw o := by
    rw [toNat_sub_one (by omega)]
    omega
  have hsubset : D ⊆ D' := by
    rw [hD']
    split
    case isTrue => exact subset_insert o D
    case isFalse => exact Subset.rfl
  have hcounted (s : S) (q : O) :
      Counted L (insert x U) { h with refCount := update h.refCount o (h.refCount o - 1) } s q →
        h.Counted L U s q := fun hs => ⟨fun hmem => hs.1 (mem_insert_of_mem hmem), hs.2⟩
  refine ⟨fun q hq => ?_, fun s q hs => hrel.live s q (hcounted s q hs), fun q hq => ?_,
    fun q hq hzero => ?_, hrel.deleted, hrel.still, hrel.kept, hrel.gone⟩
  · change (update h.refCount o (h.refCount o - 1) q).toNat = h.refs L (insert x U) q + raw q
    by_cases hqo : q = o
    · subst hqo
      rw [update_self]
      exact hsub
    · rw [update_of_ne hqo, hrel.counts q hq]
      have h := refs_insert hx q
      rw [if_neg hqo, Nat.add_zero] at h
      exact congrArg (· + raw q) h.symm
  · by_cases hqo : q = o
    · subst hqo
      split at hD'
      case isTrue hlast =>
        rw [hlast] at hsub
        have hsum : h.refs L (insert x U) q + raw q = 0 := hsub.symm
        refine ⟨hrel.live x q hx, (update_self ..).trans hlast, ?_⟩
        exact hrel.onlyThrough hU hx hdue (by omega) (by omega)
      case isFalse =>
        rw [hD'] at hq
        exact absurd hq (hrel.not_dying hx)
    · have hmem : q ∈ D := by
        rw [hD'] at hq
        split at hq
        case isTrue => exact (mem_insert.mp hq).resolve_left hqo
        case isFalse => exact hq
      obtain ⟨hlive, hzero, honly⟩ := hrel.dying q hmem
      exact ⟨hlive, (update_of_ne hqo ..).trans hzero, honly⟩
  · change update h.refCount o (h.refCount o - 1) q = 0 at hzero
    by_cases hqo : q = o
    · subst hqo
      rw [update_self] at hzero
      rw [hD', if_pos hzero]
      exact .inl (mem_insert_self q D)
    · rw [update_of_ne hqo] at hzero
      exact (hrel.zero q hq hzero).imp (fun h => hsubset h) id

/-- A pointer whose reference has been counted down is cleared. -/
theorem Releasing.clear {x : S} (hrel : Releasing L raw p h₀ (insert x U) D h)
    (hdue : Due L p D x) (hx : x ∉ U) :
    Releasing L raw p h₀ U D { h with ptr := update h.ptr x none } := by
  have hcounted (s : S) (q : O) : Counted L U { h with ptr := update h.ptr x none } s q ↔
      h.Counted L (insert x U) s q := by
    by_cases hs : s = x
    · subst hs
      refine iff_of_false (fun h => ?_) (fun h => h.1 (mem_insert_self s U))
      have hnone : some q = none := h.2.2.symm.trans (update_self ..)
      cases hnone
    · simp only [Counted, Points, Accessible, mem_insert, hs, false_or, update_of_ne hs]
  refine ⟨fun q hq => ?_, fun s q hs => hrel.live s q ((hcounted s q).mp hs), hrel.dying, hrel.zero,
    hrel.deleted, hrel.still, fun s => ?_, fun s hs => ?_⟩
  · rw [refs_congr fun s => hcounted s q]
    exact hrel.counts q hq
  · by_cases hs : s = x
    · subst hs
      exact .inr (update_self ..)
    · simpa only [update_of_ne hs] using hrel.kept s
  · by_cases hsx : s = x
    · subst hsx
      rcases hdue with h | ⟨c, hc, howner⟩
      · exact .inr (.inl h)
      · exact .inr (.inr ⟨c, howner, (hrel.dying c hc).2.2⟩)
    · simpa only [update_of_ne hsx] using hrel.gone s hs

/-- An object whose fields have been cleared is given back. -/
theorem Releasing.dispose {o : O} (hrel : Releasing L raw p h₀ U (insert o D) h) (ho : o ∉ D)
    (hfields : ∀ s ∈ L.fields o, h.ptr s = none) :
    Releasing L raw p h₀ U D { h with deletes := update h.deletes o (h.deletes o + 1) } := by
  obtain ⟨hlive, hzero, honly⟩ := hrel.dying o (mem_insert_self o D)
  have haccess (s : S) : Accessible L { h with deletes := update h.deletes o (h.deletes o + 1) } s →
      h.Accessible L s := by
    intro hs c hc
    have hne := hs c hc
    by_cases hco : c = o
    · rw [hco]
      exact hlive
    · simpa only [update_of_ne hco] using hne
  have hcounted (s : S) (q : O) :
      Counted L U { h with deletes := update h.deletes o (h.deletes o + 1) } s q ↔
        h.Counted L U s q := by
    constructor
    · exact fun hs => ⟨hs.1, haccess s hs.2.1, hs.2.2⟩
    · intro hs
      refine ⟨hs.1, fun c hc => ?_, hs.2.2⟩
      have hco : c ≠ o := by
        rintro rfl
        have hnone := hfields s ((L.mem_fields c s).mpr hc)
        rw [hs.2.2] at hnone
        cases hnone
      simpa only [update_of_ne hco] using hs.2.1 c hc
  have hothers {q : O} (hq : update h.deletes o (h.deletes o + 1) q = 0) :
      q ≠ o ∧ h.deletes q = 0 := by
    by_cases hqo : q = o
    · subst hqo
      rw [update_self] at hq
      omega
    · exact ⟨hqo, by rwa [update_of_ne hqo] at hq⟩
  refine ⟨fun q hq => ?_, fun s q hs => ?_, fun q hq => ?_, fun q hq hcount => ?_, fun q hq => ?_,
    fun q hq => ?_, hrel.kept, hrel.gone⟩
  · rw [refs_congr fun s => hcounted s q]
    exact hrel.counts q (hothers hq).2
  · have hbefore := (hcounted s q).mp hs
    have hqo : q ≠ o := by
      rintro rfl
      have hcount := hrel.counts q hlive
      rw [hzero] at hcount
      have hsum : h.refs L U q + raw q = 0 := hcount.symm
      have hnone : h.refs L U q = 0 := by omega
      exact refs_eq_zero_iff.mp hnone s hbefore
    exact (update_of_ne hqo ..).trans (hrel.live s q hbefore)
  · have hqo : q ≠ o := fun h => ho (h ▸ hq)
    obtain ⟨h, hrest⟩ := hrel.dying q (mem_insert_of_mem hq)
    exact ⟨(update_of_ne hqo ..).trans h, hrest⟩
  · obtain ⟨hqo, hq⟩ := hothers hq
    exact (hrel.zero q hq hcount).imp (fun h => (mem_insert.mp h).resolve_left hqo) id
  · change update h.deletes o (h.deletes o + 1) q ≠ 0 at hq
    by_cases hqo : q = o
    · subst hqo
      exact .inr honly
    · rw [update_of_ne hqo] at hq
      exact hrel.deleted q hq
  · change update h.deletes o (h.deletes o + 1) q ≠ 0
    by_cases hqo : q = o
    · subst hqo
      rw [update_self]
      omega
    · rw [update_of_ne hqo]
      exact hrel.still q hq

/-- A sound heap is at the beginning of a release. -/
theorem Sound.releasing (hsound : h.Sound L raw) : Releasing L raw p h ∅ ∅ h := by
  have hpoints (s : S) (o : O) : h.Counted L ∅ s o ↔ h.Points L s o := by simp [Counted]
  refine ⟨fun o ho => ?_, fun s o hs => hsound.live s o ((hpoints s o).mp hs),
    fun o ho => absurd ho (notMem_empty o), fun o _ hzero => .inr hzero, fun o ho => .inl ho,
    fun o ho => ho, fun s => .inl rfl, fun s _ => .inl rfl⟩
  simp only [hsound.counts o ho, refs, hpoints]

section Spec

variable [Fintype O]

/-- What `ReleaseRef` does for a given up pointer, in a release of `p` with fuel for all
objects that may still be deleted. -/
def ReleaseRefSpec (L : Layout S O) (raw : O → ℕ) (p : S) (h₀ : Heap S O)
    (releaseRef : Heap S O → O → Except Fault (Heap S O)) (fuel : ℕ) : Prop :=
  ∀ {U : Finset S} {D : Finset O} {h : Heap S O} {x : S} {o : O}, Releasing L raw p h₀ U D h →
    (h.remaining D).card ≤ fuel → (∀ s ∈ U, Due L p D s) → Due L p D x → h.Counted L U x o →
    Ends (fun h' => Releasing L raw p h₀ (insert x U) D h' ∧ Shrinks h h') (fun _ => False)
      (releaseRef h o)

/-- What `Release` then does: it clears the pointer. -/
theorem releaseBy_spec {releaseRef : Heap S O → O → Except Fault (Heap S O)} {fuel : ℕ}
    (hspec : ReleaseRefSpec L raw p h₀ releaseRef fuel) (hp : h₀.Stays L raw p)
    (hrel : Releasing L raw p h₀ U D h) (hfuel : (h.remaining D).card ≤ fuel)
    (hU : ∀ s ∈ U, Due L p D s) {x : S} (hdue : Due L p D x) (hx : x ∉ U) :
    Ends (fun h' => Releasing L raw p h₀ U D h' ∧ h'.ptr x = none ∧ Shrinks h h')
      (fun _ => False) (releaseBy L releaseRef h x) := by
  have haccess := hrel.accessible hp hdue
  rw [releaseBy, read_eq haccess, ok_bind]
  cases hptr : h.ptr x with
  | none => exact ⟨hrel, hptr, .refl h⟩
  | some o =>
    apply (hspec hrel hfuel hU hdue ⟨hx, haccess, hptr⟩).bind
    rintro h' ⟨hrel', hshrinks⟩
    rw [write_eq (hrel'.accessible hp hdue)]
    refine ⟨hrel'.clear hdue hx, update_self .., fun s hs => ?_, hshrinks.deletes⟩
    by_cases hsx : s = x
    · subst hsx
      exact update_self ..
    · exact (update_of_ne hsx ..).trans (hshrinks.ptr s hs)

/-- The fields of an object in destruction are released one after another. -/
theorem releaseFields_spec {releaseRef : Heap S O → O → Except Fault (Heap S O)} {fuel : ℕ}
    (hspec : ReleaseRefSpec L raw p h₀ releaseRef fuel) (hp : h₀.Stays L raw p)
    (hrel : Releasing L raw p h₀ U D h) (hfuel : (h.remaining D).card ≤ fuel)
    (hU : ∀ s ∈ U, Due L p D s) {fields : List S}
    (hfields : ∀ x ∈ fields, Due L p D x ∧ x ∉ U) :
    Ends (fun h' => Releasing L raw p h₀ U D h' ∧ Shrinks h h' ∧ ∀ x ∈ fields, h'.ptr x = none)
      (fun _ => False) (fields.foldlM (releaseBy L releaseRef) h) := by
  have hloop := Ends.foldlM (I := fun h' => Releasing L raw p h₀ U D h' ∧ Shrinks h h')
    (D := fun x h' => h'.ptr x = none) (E := fun _ => False) (f := releaseBy L releaseRef)
    (l := fields) (s := h) (fun x hx h' hh' => ?_) ⟨hrel, .refl h⟩
  · exact hloop.mono fun h' hh' => ⟨hh'.1.1, hh'.1.2, hh'.2.1⟩
  · obtain ⟨hrel', hshrinks⟩ := hh'
    obtain ⟨hdue, hxU⟩ := hfields x hx
    have hfuel' := hshrinks.remaining_le.trans hfuel
    refine (releaseBy_spec hspec hp hrel' hfuel' hU hdue hxU).mono fun h'' hh'' => ?_
    obtain ⟨hrel'', hclear, hshrinks'⟩ := hh''
    exact ⟨⟨hrel'', hshrinks.trans hshrinks'⟩, hclear, hshrinks'.ptr⟩

/-- `ReleaseRef` runs to its end: it destroys the object and its fields if it has counted
down the last reference. The induction is on the fuel, which the objects in destruction use
up. -/
theorem releaseRef_spec (hp : h₀.Stays L raw p) (fuel : ℕ) :
    ReleaseRefSpec L raw p h₀ (releaseRef L fuel) fuel := by
  induction fuel with
  | zero =>
    intro U D h x o hrel hfuel hU hdue hx
    have hmem : o ∈ h.remaining D :=
      mem_filter.mpr ⟨mem_univ o, hrel.live x o hx, hrel.not_dying hx⟩
    have hpositive := card_pos.mpr ⟨o, hmem⟩
    omega
  | succ fuel ih =>
    intro U D h x o hrel hfuel hU hdue hx
    have hlive := hrel.live x o hx
    have hD := hrel.not_dying hx
    simp only [releaseRef, ne_eq, hlive, not_true_eq_false, if_false, update_self]
    split
    case isFalse hmore =>
      exact ⟨hrel.countDown hU hx hdue (if_neg hmore).symm, fun _ => id, fun _ => id⟩
    case isTrue hlast =>
      have hdown := hrel.countDown hU hx hdue (if_pos hlast).symm
      have hroom := remaining_insert hlive hD
      have hgiven : ∀ s ∈ insert x U, Due L p D s := by
        intro s hs
        rcases mem_insert.mp hs with rfl | hs
        · exact hdue
        · exact hU s hs
      have hfields : ∀ s ∈ (L.fields o).reverse, Due L p (insert o D) s ∧ s ∉ insert x U := by
        intro s hs
        have howner := (L.mem_fields o s).mp (List.mem_reverse.mp hs)
        refine ⟨.inr ⟨o, mem_insert_self o D, howner⟩, fun hmem => ?_⟩
        rcases hgiven s hmem with rfl | ⟨c, hc, h⟩
        · exact (hp o howner).2 (hdown.dying o (mem_insert_self o D)).2.2
        · cases howner.symm.trans h
          exact hD hc
      have hmono : ∀ s ∈ insert x U, Due L p (insert o D) s := fun s hs =>
        (hgiven s hs).imp id fun ⟨c, hc, h⟩ => ⟨c, mem_insert_of_mem hc, h⟩
      apply (releaseFields_spec ih hp hdown (Nat.le_of_lt_succ (hroom.trans_le hfuel)) hmono
        hfields).bind
      rintro h' ⟨hrel', hshrinks, hcleared⟩
      refine ⟨hrel'.dispose hD fun s hs => hcleared s (List.mem_reverse.mpr hs),
        hshrinks.ptr, fun q hq => ?_⟩
      change update h'.deletes o (h'.deletes o + 1) q ≠ 0
      by_cases hqo : q = o
      · rw [hqo, update_self]
        omega
      · rw [update_of_ne hqo]
        exact hshrinks.deletes q hq

/-- `Release` in a sound heap returns, and what it has done. -/
theorem release_stays_spec (hsound : h.Sound L raw) (hp : h.Stays L raw p) {fuel : ℕ}
    (hfuel : Fintype.card O ≤ fuel) :
    ∃ h', h.release L fuel p = .ok h' ∧ Releasing L raw p h ∅ ∅ h' ∧ h'.ptr p = none := by
  have hremaining : (h.remaining ∅).card ≤ fuel := (card_le_univ _).trans hfuel
  have hends := releaseBy_spec (releaseRef_spec hp fuel) hp hsound.releasing hremaining
    (fun s hs => absurd hs (notMem_empty s)) (.inl rfl) (notMem_empty p)
  cases hresult : h.release L fuel p with
  | error e =>
    rw [release] at hresult
    rw [hresult] at hends
    exact hends.elim
  | ok h' =>
    rw [release] at hresult
    rw [hresult] at hends
    exact ⟨h', rfl, hends.1, hends.2.1⟩

theorem release_spec (hsound : h.Sound L raw) (hp : L.owner p = none) {fuel : ℕ}
    (hfuel : Fintype.card O ≤ fuel) :
    ∃ h', h.release L fuel p = .ok h' ∧ Releasing L raw p h ∅ ∅ h' ∧ h'.ptr p = none :=
  release_stays_spec hsound (stays_of_variable hp) hfuel

end Spec

/-- It deletes the objects that only `p` has kept alive, and no others. -/
theorem Releasing.deletes_iff (hsound : h₀.Sound L raw) (hrel : Releasing L raw p h₀ ∅ ∅ h)
    (hclear : h.ptr p = none) {o : O} (hlive : h₀.deletes o = 0) :
    h.deletes o ≠ 0 ↔ h₀.OnlyThrough L raw p o := by
  constructor
  · exact fun h => (hrel.deleted o h).resolve_left fun hne => hne hlive
  · intro honly
    induction honly with
    | intro o hraw hheld howned _ ih =>
      intro hzero
      have hnone : h.refs L ∅ o = 0 := by
        rw [refs_eq_zero_iff]
        intro s hs
        have hpoints : h₀.Points L s o := by
          refine ⟨hrel.accessible_start hs.2.1, ?_⟩
          rcases hrel.kept s with h | h
          · exact h.symm.trans hs.2.2
          · rw [hs.2.2] at h
            cases h
        have hsp : s ≠ p := by
          rintro rfl
          rw [hs.2.2] at hclear
          cases hclear
        obtain ⟨c, hc⟩ := howned s hpoints hsp
        exact ih s c hpoints hsp hc (hpoints.1 c hc) (hs.2.1 c hc)
      have hcount := hrel.counts o hzero
      rw [hnone, hraw] at hcount
      have hrefCount : h.refCount o = 0 := BitVec.eq_of_toNat_eq hcount
      rcases hrel.zero o hzero hrefCount with hmem | hstart
      · exact notMem_empty o hmem
      · -- `o` had a reference to begin with
        obtain ⟨s, hs⟩ := hheld
        have hcount₀ := hsound.counts o hlive
        rw [hstart] at hcount₀
        have hpositive : 0 < (univ.filter fun s => h₀.Points L s o).card :=
          card_pos.mpr ⟨s, mem_filter.mpr ⟨mem_univ s, hs⟩⟩
        have hsum : (univ.filter fun s => h₀.Points L s o).card + raw o = 0 := hcount₀.symm
        omega

end Heap

end CppServer.RefCounting
