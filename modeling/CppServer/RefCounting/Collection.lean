import CppServer.Base.Anchored
import CppServer.RefCounting.Assignment

namespace CppServer.RefCounting.Heap

open Function Base Base.Graph Relation

section Graph

variable {S O : Type}

/-- An object refers to another one by a `TSharedPtr` that is not among `X`. -/
def Refers (L : Layout S O) (X : Set S) (h : Heap S O) (c o : O) : Prop :=
  ∃ s, s ∉ X ∧ L.owner s = some c ∧ h.Points L s o

/-- A reference from outside the objects: a raw one, or a variable that is not among `X`. -/
def Root (L : Layout S O) (raw : O → ℕ) (X : Set S) (h : Heap S O) (o : O) : Prop :=
  0 < raw o ∨ ∃ x, x ∉ X ∧ L.owner x = none ∧ h.Points L x o

/-- References lead to the object from outside the objects or from a cycle of objects. -/
def Kept (L : Layout S O) (raw : O → ℕ) (X : Set S) (h : Heap S O) (o : O) : Prop :=
  Anchored (h.Refers L X) (h.Root L raw X) o

/-- The program gets at the `TSharedPtr`: it is a variable, or a field of an object to which
references lead from outside the objects. -/
def Reached (L : Layout S O) (raw : O → ℕ) (h : Heap S O) (s : S) : Prop :=
  ∀ c, L.owner s = some c → ∃ b, h.Root L raw ∅ b ∧ ReflTransGen (h.Refers L ∅) b c

variable [Fintype S] [DecidableEq O]

/-- A sound heap in which every object has a reference and every raw reference an object. -/
structure Collected (L : Layout S O) (raw : O → ℕ) (h : Heap S O) : Prop where
  sound : h.Sound L raw
  held : ∀ o, h.deletes o = 0 → 0 < raw o ∨ ∃ s, h.Points L s o
  raw : ∀ o, 0 < raw o → h.deletes o = 0

variable {L : Layout S O} {raw : O → ℕ} {X : Set S} {h : Heap S O} {o : O} {p : S}

theorem Collected.live_of_root (hcollected : h.Collected L raw) (hroot : h.Root L raw X o) :
    h.deletes o = 0 := by
  rcases hroot with hraw | ⟨x, -, -, hx⟩
  · exact hcollected.raw o hraw
  · exact hcollected.sound.live x o hx

theorem Collected.live_of_kept (hcollected : h.Collected L raw) (hkept : h.Kept L raw X o) :
    h.deletes o = 0 := by
  rcases anchored_iff.mp hkept with hroot | ⟨c, -, s, -, -, hs⟩
  · exact hcollected.live_of_root hroot
  · exact hcollected.sound.live s o hs

omit [Fintype S] [DecidableEq O] in
/-- A field that the program gets at is one of an object that is kept without it. -/
theorem Reached.kept {s : S} {c : O} (hreached : h.Reached L raw s) (howner : L.owner s = some c) :
    h.Kept L raw {s} c := by
  obtain ⟨b, hroot, hpath⟩ := hreached c howner
  have hfirst : h.Kept L raw {s} b := by
    refine .of_root (hroot.imp_right ?_)
    rintro ⟨x, -, hvariable, hx⟩
    refine ⟨x, ?_, hvariable, hx⟩
    rintro rfl
    rw [howner] at hvariable
    cases hvariable
  -- where the path takes the field itself, it has come to the object already
  have halong (d : O) (hd : ReflTransGen (h.Refers L ∅) b d) :
      h.Kept L raw {s} d ∨ h.Kept L raw {s} c := by
    induction hd with
    | refl => exact .inl hfirst
    | tail _ hstep ih =>
      obtain ⟨t, -, ht, hpoints⟩ := hstep
      refine ih.elim (fun hkept => ?_) .inr
      by_cases hts : t = s
      · subst hts
        rw [howner] at ht
        cases ht
        exact .inr hkept
      · exact .inl (hkept.step ⟨t, hts, ht, hpoints⟩)
  exact (halong c hpath).elim id id

variable [Finite O]

/-- An object is there exactly if references lead to it from outside the objects or from a
cycle. -/
theorem Collected.live_iff (hcollected : h.Collected L raw) :
    h.deletes o = 0 ↔ h.Kept L raw ∅ o := by
  refine ⟨fun hlive => ?_, hcollected.live_of_kept⟩
  refine Anchored.of_closed (Q := fun o => h.deletes o = 0) (fun a ha => ?_) hlive
  rcases hcollected.held a ha with hraw | ⟨s, hs⟩
  · exact .inl (.inl hraw)
  · cases hc : L.owner s with
    | none => exact .inl (.inr ⟨s, Set.notMem_empty s, hc, hs⟩)
    | some c => exact .inr ⟨c, hs.1 c hc, s, Set.notMem_empty s, hc, hs⟩

omit [Finite O] [Fintype S] [DecidableEq O] in
/-- What only `p` keeps alive is not kept by anything else. -/
theorem OnlyThrough.not_kept (honly : h.OnlyThrough L raw p o) : ¬ h.Kept L raw {p} o := by
  induction honly with
  | intro o hraw _ howned _ ih =>
    intro hkept
    rcases anchored_iff.mp hkept with
      (hpos | ⟨x, hx, howner, hpoints⟩) | ⟨c, hc, s, hs, howner, hpoints⟩
    · omega
    · obtain ⟨c, hc⟩ := howned x hpoints hx
      rw [howner] at hc
      cases hc
    · exact ih s c hpoints hs howner hc

/-- The objects that a release of `p` would delete, in terms of the graph of references. -/
theorem Collected.onlyThrough_iff (hcollected : h.Collected L raw) (hlive : h.deletes o = 0) :
    h.OnlyThrough L raw p o ↔ ¬ h.Kept L raw {p} o := by
  refine ⟨OnlyThrough.not_kept, fun hnot => ?_⟩
  revert hlive
  refine Anchored.induction_not (Q := fun o => h.deletes o = 0 → h.OnlyThrough L raw p o)
    (fun o hnot ih hlive => ?_) hnot
  have hraw : raw o = 0 := Nat.eq_zero_of_not_pos fun hpos => hnot (.of_root (.inl hpos))
  refine .intro o hraw ?_ (fun s hs hsp => ?_) (fun s c hs hsp hc => ?_)
  · exact (hcollected.held o hlive).resolve_left (by omega)
  · by_contra hvariable
    have hnone : L.owner s = none := by
      cases hc : L.owner s with
      | none => rfl
      | some c => exact absurd ⟨c, hc⟩ hvariable
    exact hnot (.of_root (.inr ⟨s, hsp, hnone, hs⟩))
  · have hstep : h.Refers L {p} c o := ⟨s, hsp, hc, hs⟩
    exact ih c hstep (fun hkept => hnot (hkept.step hstep)) (hs.1 c hc)

omit [Finite O] in
theorem Collected.stays (hcollected : h.Collected L raw) (hreached : h.Reached L raw p) :
    h.Stays L raw p := by
  intro c howner
  have hkept := hreached.kept howner
  exact ⟨hcollected.live_of_kept hkept, fun honly => honly.not_kept hkept⟩

end Graph

section Operations

variable {S O : Type} [Fintype S] [DecidableEq S] [Fintype O] [DecidableEq O] {L : Layout S O}
  {raw : O → ℕ} {fuel : ℕ} {h h' : Heap S O} {x rhs : S}

omit [Fintype O] [DecidableEq S] in
/-- Between two operations the counts of the objects are those of the references. -/
theorem Collected.refCount_ne_zero (hcollected : h.Collected L raw) {o : O}
    (hlive : h.deletes o = 0) : h.refCount o ≠ 0 := by
  intro hzero
  have hcount := hcollected.sound.counts o hlive
  rw [hzero] at hcount
  have hsum : (Finset.univ.filter fun s => h.Points L s o).card + raw o = 0 := hcount.symm
  rcases hcollected.held o hlive with hraw | ⟨s, hs⟩
  · omega
  · have hpositive : 0 < (Finset.univ.filter fun s => h.Points L s o).card :=
      Finset.card_pos.mpr ⟨s, Finset.mem_filter.mpr ⟨Finset.mem_univ s, hs⟩⟩
    omega

omit [Fintype O] in
/-- After a release each object has a reference again. -/
theorem Collected.released (hcollected : h.Collected L raw) (hrel : Releasing L raw x h ∅ ∅ h') :
    h'.Collected L raw where
  sound := hrel.sound
  held o hlive := by
    have hbefore : h.deletes o = 0 := by
      by_contra hne
      exact hrel.still o hne hlive
    have hcount : h'.refCount o ≠ 0 := by
      intro hzero
      rcases hrel.zero o hlive hzero with hmem | hstart
      · exact Finset.notMem_empty o hmem
      · exact hcollected.refCount_ne_zero hbefore hstart
    by_contra hnone
    push Not at hnone
    apply hcount
    apply BitVec.eq_of_toNat_eq
    rw [hrel.sound.counts o hlive, Finset.filter_false_of_mem fun s _ => hnone.2 s]
    simpa using hnone.1
  raw o hraw := by
    by_contra hne
    rcases hrel.deleted o hne with hbefore | honly
    · exact hbefore (hcollected.raw o hraw)
    · obtain ⟨_, hnone, -⟩ := honly
      omega

/-- `Release` of a `TSharedPtr` that the program gets at goes through, and leaves an object alive
exactly if it is kept by other references or by a cycle of them. -/
theorem Collected.release (hcollected : h.Collected L raw) (hreached : h.Reached L raw x)
    (hfuel : Fintype.card O ≤ fuel) :
    ∃ h', h.release L fuel x = .ok h' ∧ h'.Collected L raw ∧ h'.ptr x = none ∧
      h'.Accessible L x ∧ ∀ o, h.deletes o = 0 → (h'.deletes o = 0 ↔ h.Kept L raw {x} o) := by
  have hstays := hcollected.stays hreached
  obtain ⟨h', hrelease, hrel, hclear⟩ := release_stays_spec hcollected.sound hstays hfuel
  refine ⟨h', hrelease, hcollected.released hrel, hclear, hrel.accessible hstays (.inl rfl),
    fun o hlive => ?_⟩
  have hdeletes := hrel.deletes_iff hcollected.sound hclear hlive
  rw [hcollected.onlyThrough_iff hlive] at hdeletes
  exact not_iff_not.mp hdeletes

end Operations

end CppServer.RefCounting.Heap
