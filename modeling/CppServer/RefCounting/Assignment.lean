import CppServer.Base.Counting
import CppServer.RefCounting.Cascade

namespace CppServer.RefCounting

open Function Base

variable {S O : Type}

namespace Heap

/-- Of two pointers to one object neither keeps anything alive alone. -/
theorem not_onlyThrough_of_eq {L : Layout S O} {h : Heap S O} {raw : O → ℕ} {p r : S}
    (hr : h.Accessible L r) (hne : r ≠ p) (heq : h.ptr p = h.ptr r) {o : O}
    (howner : L.owner r = some o) (c : O) : ¬ h.OnlyThrough L raw p c := by
  intro honly
  induction honly with
  | intro c _ hheld howned _ ih =>
    obtain ⟨s, hs⟩ := hheld
    by_cases hsp : s = p
    · subst hsp
      have hpoints : h.Points L r c := ⟨hr, heq.symm.trans hs.2⟩
      exact ih r o hpoints hne howner
    · obtain ⟨d, hd⟩ := howned s hs hsp
      exact ih s d hs hsp hd

variable [DecidableEq S] [DecidableEq O]

/-- `Set` with a source that is there and points to an object that is. -/
theorem set_spec {L : Layout S O} {h : Heap S O} {x rhs : S} (hx : L.owner x = none)
    (hrhs : h.Accessible L rhs) (hlive : ∀ o ∈ h.ptr rhs, h.deletes o = 0) :
    ∃ h', h.set L x rhs = .ok h' ∧ h'.ptr x = h.ptr rhs ∧ h'.deletes = h.deletes := by
  simp only [set, read_eq hrhs, write_eq (accessible_of_variable hx h), ok_bind]
  cases hptr : h.ptr rhs with
  | none => exact ⟨_, rfl, update_self .., rfl⟩
  | some o => exact ⟨_, if_neg (not_not.mpr (hlive o hptr)), update_self .., rfl⟩

/-- `Set` reads a source that has been deleted all the same. -/
theorem set_deleted {L : Layout S O} {h : Heap S O} {x rhs : S} (hrhs : ¬ h.Accessible L rhs) :
    h.set L x rhs = .error .deleted := by
  rw [set, read, if_neg hrhs]
  rfl

section Equations

variable {L : Layout S O} {fuel : ℕ} {h h' : Heap S O} {p r : S}

theorem copyAssign_of_eq (hp : h.Accessible L p) (hr : h.Accessible L r)
    (heq : h.ptr p = h.ptr r) : h.copyAssign L fuel p r = .ok h := by
  simp only [copyAssign, read_eq hp, read_eq hr, ok_bind, ne_eq, heq, not_true_eq_false, if_false]
  rfl

theorem copyAssign_of_ne (hp : h.Accessible L p) (hr : h.Accessible L r)
    (hne : h.ptr p ≠ h.ptr r) (hrelease : h.release L fuel p = .ok h') :
    h.copyAssign L fuel p r = h'.set L p r := by
  simp only [copyAssign, read_eq hp, read_eq hr, ok_bind, hne, ne_eq, not_false_eq_true, if_true,
    hrelease]

theorem moveAssign_of_release (hp : h'.Accessible L p) (hr : h'.Accessible L r)
    (hrelease : h.release L fuel p = .ok h') :
    h.moveAssign L fuel p r =
      .ok { h' with ptr := update (update h'.ptr p (h'.ptr r)) r none } := by
  have hr' : Accessible L { h' with ptr := update h'.ptr p (h'.ptr r) } r := hr
  simp only [moveAssign, hrelease, ok_bind, read_eq hr, write_eq hp, write_eq hr']

end Equations

section Source

variable [Fintype S] {L : Layout S O} {raw : O → ℕ} {h h' : Heap S O} {p r : S}

/-- After the release of `p` the source is still there exactly if its object was not kept
alive only through `p`. -/
theorem Releasing.source_iff (hsound : h.Sound L raw) (hrel : Releasing L raw p h ∅ ∅ h')
    (hclear : h'.ptr p = none) (hr : h.Accessible L r) :
    h'.Accessible L r ↔ ∀ o, L.owner r = some o → ¬ h.OnlyThrough L raw p o := by
  apply forall_congr'
  intro o
  constructor
  · intro haccess howner honly
    exact (hrel.deletes_iff hsound hclear (hr o howner)).mpr honly (haccess howner)
  · intro hsurvives howner
    by_contra hne
    exact hsurvives howner ((hrel.deletes_iff hsound hclear (hr o howner)).mp hne)

/-- A source that is still there has its pointer, and that keeps its object. -/
theorem Releasing.source_kept (hrel : Releasing L raw p h ∅ ∅ h') (hr : h.Accessible L r)
    (hne : r ≠ p) (hsurvives : ∀ o, L.owner r = some o → ¬ h.OnlyThrough L raw p o)
    (hr' : h'.Accessible L r) :
    h'.ptr r = h.ptr r ∧ ∀ o ∈ h'.ptr r, h'.deletes o = 0 := by
  refine ⟨?_, fun o ho => hrel.live r o ⟨Finset.notMem_empty r, hr', ho⟩⟩
  rcases hrel.gone r hr with h | h | ⟨c, hc, honly⟩
  · exact h
  · exact absurd h hne
  · exact absurd honly (hsurvives c hc)

variable [Fintype O]

/-- An assignment from a `TSharedPtr` that is there to another variable goes through, leaves
it with the pointer of the source and deletes no object that this points to, exactly if the
object that the source is a field of, if any, is not kept alive only through that variable. -/
theorem assigned_iff (hsound : h.Sound L raw) (hp : L.owner p = none) (hr : h.Accessible L r)
    (hne : r ≠ p) {fuel : ℕ} (hfuel : Fintype.card O ≤ fuel) :
    (h.Assigned p r (h.copyAssign L fuel p r) ↔
        ∀ o, L.owner r = some o → ¬ h.OnlyThrough L raw p o) ∧
      (h.Assigned p r (h.moveAssign L fuel p r) ↔
        ∀ o, L.owner r = some o → ¬ h.OnlyThrough L raw p o) := by
  obtain ⟨h', hrelease, hrel, hclear⟩ := release_spec hsound hp hfuel
  have hsource := hrel.source_iff hsound hclear hr
  have hvar (h : Heap S O) : h.Accessible L p := accessible_of_variable hp h
  rw [← hsource]
  constructor
  · by_cases heq : h.ptr p = h.ptr r
    · rw [copyAssign_of_eq (hvar h) hr heq]
      refine iff_of_true ⟨h, rfl, heq, fun o ho => hsound.live r o ⟨hr, ho⟩⟩ ?_
      exact hsource.mpr fun o howner => not_onlyThrough_of_eq hr hne heq howner o
    · rw [copyAssign_of_ne (hvar h) hr heq hrelease]
      constructor
      · rintro ⟨final, hset, -⟩
        by_contra hdeleted
        rw [set_deleted hdeleted] at hset
        cases hset
      · intro hr'
        obtain ⟨hkept, hlive⟩ := hrel.source_kept hr hne (hsource.mp hr') hr'
        obtain ⟨final, hset, hptr, hdeletes⟩ := set_spec hp hr' hlive
        refine ⟨final, hset, hptr.trans hkept, fun o ho => ?_⟩
        rw [hdeletes]
        exact hlive o (hkept ▸ ho)
  · constructor
    · rintro ⟨final, hmove, -⟩
      by_contra hdeleted
      rw [moveAssign, hrelease, ok_bind, read, if_neg hdeleted] at hmove
      cases hmove
    · intro hr'
      obtain ⟨hkept, hlive⟩ := hrel.source_kept hr hne (hsource.mp hr') hr'
      rw [moveAssign_of_release (hvar h') hr' hrelease]
      refine ⟨_, rfl, ?_, fun o ho => hlive o (hkept ▸ ho)⟩
      change update (update h'.ptr p (h'.ptr r)) r none p = h.ptr r
      rw [update_of_ne hne.symm, update_self, hkept]

end Source

section Sound

variable [Fintype S] {L : Layout S O} {raw : O → ℕ} {h h₀ : Heap S O} {p x : S}

/-- A heap between two operations again, once the release has returned. -/
theorem Releasing.sound (hrel : Releasing L raw p h₀ ∅ ∅ h) : h.Sound L raw := by
  have hcounted (s : S) (o : O) : h.Counted L ∅ s o ↔ h.Points L s o := by simp [Counted]
  refine ⟨fun s o hs => hrel.live s o ((hcounted s o).mpr hs), fun o ho => ?_⟩
  simpa only [refs, hcounted] using hrel.counts o ho

/-- Writing a pointer moves the number of pointers by the difference of that one. -/
theorem card_points_update (hx : h.Accessible L x) (ptr : Option O) (o : O) :
    (Finset.univ.filter fun s => Points L { h with ptr := update h.ptr x ptr } s o).card +
        (if h.ptr x = some o then 1 else 0) =
      (Finset.univ.filter fun s => h.Points L s o).card + if ptr = some o then 1 else 0 := by
  have hrest (s : S) (hs : s ≠ x) :
      (if Points L { h with ptr := update h.ptr x ptr } s o then 1 else 0) =
        if h.Points L s o then 1 else 0 := by
    have hsame : Points L { h with ptr := update h.ptr x ptr } s o ↔ h.Points L s o := by
      simp only [Points, Accessible, update_of_ne hs]
    exact if_congr hsame rfl rfl
  have hself : Points L { h with ptr := update h.ptr x ptr } x o ↔ ptr = some o := by
    simp only [Points, update_self]
    exact and_iff_right hx
  have hpoints : h.Points L x o ↔ h.ptr x = some o := and_iff_right hx
  have htotal := Counting.total_change hrest
  simpa only [Finset.card_filter, hself, hpoints] using htotal

omit [DecidableEq O] [Fintype S] in
theorem points_update (h : Heap S O) {s : S} {o : O} {ptr : Option O}
    (hs : Points L { h with ptr := update h.ptr x ptr } s o) :
    (s = x ∧ ptr = some o) ∨ (s ≠ x ∧ h.Points L s o) := by
  obtain ⟨haccess, hptr⟩ := hs
  change update h.ptr x ptr s = some o at hptr
  by_cases hsx : s = x
  · rw [hsx, update_self] at hptr
    exact .inl ⟨hsx, hptr⟩
  · rw [update_of_ne hsx] at hptr
    exact .inr ⟨hsx, haccess, hptr⟩

/-- `Set` of a cleared variable keeps the heap sound while the count has room. -/
theorem Sound.set {rhs : S} (hsound : h.Sound L raw) (hx : h.Accessible L x)
    (hclear : h.ptr x = none) (hrhs : h.Accessible L rhs)
    (hroom : ∀ o ∈ h.ptr rhs, (h.refCount o).toNat + 1 < 2 ^ 32) :
    ∃ h', h.set L x rhs = .ok h' ∧ h'.Sound L raw := by
  have hcard := card_points_update hx (h.ptr rhs)
  simp only [hclear, reduceCtorEq, if_false, Nat.add_zero] at hcard
  have hlive (s : S) (q : O) (hs : Points L { h with ptr := update h.ptr x (h.ptr rhs) } s q) :
      h.deletes q = 0 := by
    rcases points_update h hs with ⟨-, hq⟩ | ⟨-, hq⟩
    · exact hsound.live rhs q ⟨hrhs, hq⟩
    · exact hsound.live s q hq
  rw [Heap.set, read_eq hrhs, ok_bind, write_eq hx, ok_bind]
  cases hptr : h.ptr rhs with
  | none =>
    rw [hptr] at hcard hlive
    refine ⟨_, rfl, hlive, fun q hq => (hsound.counts q hq).trans ?_⟩
    rw [hcard q]
    rfl
  | some o =>
    rw [hptr] at hcard hlive
    refine ⟨_, if_neg (not_not.mpr (hsound.live rhs o ⟨hrhs, hptr⟩)), hlive, fun q hq => ?_⟩
    have hcount := hsound.counts q hq
    change (update h.refCount o (h.refCount o + 1) q).toNat =
      (Finset.univ.filter fun s => Points L { h with ptr := update h.ptr x (some o) } s q).card +
        raw q
    rw [hcard q]
    by_cases hqo : q = o
    · subst hqo
      have hfew := hroom q hptr
      rw [update_self, if_pos rfl, BitVec.toNat_add]
      change ((h.refCount q).toNat + 1) % 2 ^ 32 = _
      omega
    · have hne : some o ≠ some q := fun h => hqo (Option.some.inj h).symm
      rw [update_of_ne hqo, if_neg hne, hcount]
      rfl

/-- So does moving the pointer of another one to it. -/
theorem Sound.take {rhs : S} (hsound : h.Sound L raw) (hx : h.Accessible L x)
    (hclear : h.ptr x = none) (hrhs : h.Accessible L rhs) (hne : rhs ≠ x) :
    Sound L raw { h with ptr := update (update h.ptr x (h.ptr rhs)) rhs none } := by
  have hgive := card_points_update hx (h.ptr rhs)
  have hrhs' : Accessible L { h with ptr := update h.ptr x (h.ptr rhs) } rhs := hrhs
  have htake := card_points_update hrhs' none
  simp only [hclear, reduceCtorEq, if_false, Nat.add_zero, update_of_ne hne] at hgive htake
  refine ⟨fun s q hs => ?_, fun q hq => (hsound.counts q hq).trans ?_⟩
  · obtain ⟨-, hnone⟩ | ⟨-, hs⟩ := points_update { h with ptr := update h.ptr x (h.ptr rhs) } hs
    · cases hnone
    · obtain ⟨-, hq⟩ | ⟨-, hq⟩ := points_update h hs
      · exact hsound.live rhs q ⟨hrhs, hq⟩
      · exact hsound.live s q hq
  · have hgive := hgive q
    have htake := htake q
    congr 1
    omega

variable [Fintype O]

/-- Where the object of the source survives, the assignments lead from a sound heap to a
sound heap, as long as the count of the new object has room. -/
theorem assigned_sound {r : S} (hsound : h.Sound L raw) (hp : L.owner p = none)
    (hr : h.Accessible L r) (hne : r ≠ p) {fuel : ℕ} (hfuel : Fintype.card O ≤ fuel)
    (hsurvives : ∀ o, L.owner r = some o → ¬ h.OnlyThrough L raw p o)
    (hroom : ∀ o ∈ h.ptr r, (h.refCount o).toNat + 1 < 2 ^ 32) :
    (∃ h', h.copyAssign L fuel p r = .ok h' ∧ h'.Sound L raw) ∧
      ∃ h', h.moveAssign L fuel p r = .ok h' ∧ h'.Sound L raw := by
  obtain ⟨h', hrelease, hrel, hclear⟩ := release_spec hsound hp hfuel
  have hr' : h'.Accessible L r := (hrel.source_iff hsound hclear hr).mpr hsurvives
  have hvar (h : Heap S O) : h.Accessible L p := accessible_of_variable hp h
  obtain ⟨hkept, hlive⟩ := hrel.source_kept hr hne hsurvives hr'
  constructor
  · by_cases heq : h.ptr p = h.ptr r
    · exact ⟨h, copyAssign_of_eq (hvar h) hr heq, hsound⟩
    · rw [copyAssign_of_ne (hvar h) hr heq hrelease]
      refine hrel.sound.set (hvar h') hclear hr' fun o ho => ?_
      -- the release takes references away only
      have hfew := hroom o (hkept ▸ ho)
      have hbefore := hsound.counts o (hsound.live r o ⟨hr, hkept ▸ ho⟩)
      have hafter := hrel.sound.counts o (hlive o ho)
      have hle : (Finset.univ.filter fun s => h'.Points L s o).card ≤
          (Finset.univ.filter fun s => h.Points L s o).card := by
        apply Finset.card_le_card
        intro s hs
        have hs := (Finset.mem_filter.mp hs).2
        refine Finset.mem_filter.mpr ⟨Finset.mem_univ s, hrel.accessible_start hs.1, ?_⟩
        rcases hrel.kept s with h | h
        · exact h.symm.trans hs.2
        · rw [hs.2] at h
          cases h
      omega
  · exact ⟨_, moveAssign_of_release (hvar h') hr' hrelease, hrel.sound.take (hvar h') hclear hr' hne⟩

end Sound

section Flat

/-- An operation of the interleaved model runs to this end when no other thread disturbs
it. -/
inductive Alone : Heap S O → Pc S O → Except Fault (Heap S O) → Prop
  | done {h : Heap S O} : Alone h .idle (.ok h)
  | fault {h : Heap S O} {pc : Pc S O} (hstep : step h pc = none) : Alone h pc (.error .deleted)
  | next {h h' : Heap S O} {pc pc' : Pc S O} {result : Except Fault (Heap S O)}
      (hstep : step h pc = some (h', pc')) (hrest : Alone h' pc' result) : Alone h pc result

variable {L : Layout S O} {h : Heap S O} {x rhs : S}

omit [DecidableEq S] [DecidableEq O] in
theorem fields_eq_nil (hflat : ∀ s, L.owner s = none) (o : O) : L.fields o = [] := by
  rw [List.eq_nil_iff_forall_not_mem]
  intro s hs
  have howner := (L.mem_fields o s).mp hs
  rw [hflat s] at howner
  cases howner

/-- Where no object has fields, `Release` is that of the interleaved model. -/
theorem release_alone (hflat : ∀ s, L.owner s = none) (fuel : ℕ) (next : Next S)
    {rest : Heap S O → Except Fault (Heap S O)} (hrest : ∀ h', Alone h' (next.pc x) (rest h')) :
    Alone h (.release x next) (h.release L (fuel + 1) x >>= rest) := by
  have hthere (h : Heap S O) : h.Accessible L x := accessible_of_variable (hflat x) h
  rw [release, releaseBy, read_eq (hthere h), ok_bind]
  cases hptr : h.ptr x with
  | none =>
    have hstep : step h (.release x next) = some (h, next.pc x) := by simp only [step, hptr]
    exact .next hstep (hrest h)
  | some o =>
    have hstep : step h (.release x next) = some (h, .releaseRef o (some (x, next))) := by
      simp only [step, hptr]
    apply Alone.next hstep
    simp only [releaseRef, fields_eq_nil hflat, update_self]
    by_cases hdeleted : h.deletes o = 0
    · have hdown : step h (.releaseRef o (some (x, next))) =
          some ({ h with refCount := update h.refCount o (h.refCount o - 1) },
            if h.refCount o - 1 = 0 then .deleteThis o (some (x, next)) else .clear x next) :=
        if_neg (not_not.mpr hdeleted)
      apply Alone.next hdown
      rw [if_neg (not_not.mpr hdeleted)]
      split
      case isTrue =>
        -- nothing stands between the start of `delete this` and its end
        refine .next rfl (.next rfl ?_)
        simp only [List.reverse_nil, List.foldlM_nil, pure_bind, hthere, write_eq, ok_bind]
        exact hrest _
      case isFalse =>
        refine .next rfl ?_
        simp only [pure_bind, hthere, write_eq, ok_bind]
        exact hrest _
    · rw [if_pos hdeleted]
      exact .fault (if_pos hdeleted)

theorem set_alone (hflat : ∀ s, L.owner s = none) : Alone h (.set x rhs) (h.set L x rhs) := by
  have hthere (h : Heap S O) (s : S) : h.Accessible L s := accessible_of_variable (hflat s) h
  rw [set, read_eq (hthere h rhs), ok_bind, write_eq (hthere h x), ok_bind]
  cases hptr : h.ptr rhs with
  | none =>
    have hstep : step h (.set x rhs) = some ({ h with ptr := update h.ptr x none }, .idle) := by
      simp only [step, hptr]
    exact .next hstep .done
  | some o =>
    have hstep : step h (.set x rhs) =
        some ({ h with ptr := update h.ptr x (some o) }, .addRef x o (some rhs)) := by
      simp only [step, hptr]
    apply Alone.next hstep
    by_cases hdeleted : h.deletes o = 0
    · simp only [addRef, hdeleted, ne_eq, not_true_eq_false, if_false]
      exact .next (if_neg (not_not.mpr hdeleted)) .done
    · simp only [addRef, hdeleted, ne_eq, not_false_eq_true, if_true]
      exact .fault (if_pos hdeleted)

/-- Where no object has fields, the assignments are those of the interleaved model. -/
theorem assignments_alone (hflat : ∀ s, L.owner s = none) (fuel : ℕ) :
    Alone h (Op.copyAssign x rhs : Op S O).entry (h.copyAssign L (fuel + 1) x rhs) ∧
      Alone h (Op.moveAssign x rhs : Op S O).entry (h.moveAssign L (fuel + 1) x rhs) := by
  have hthere (h : Heap S O) (s : S) : h.Accessible L s := accessible_of_variable (hflat s) h
  constructor
  · rw [copyAssign, read_eq (hthere h x), read_eq (hthere h rhs), ok_bind, ok_bind]
    split
    case isTrue hne =>
      exact .next (if_pos hne) (release_alone hflat fuel (.copy rhs) fun h' => set_alone hflat)
    case isFalse heq => exact .next (if_neg heq) .done
  · refine release_alone hflat fuel (.move rhs) fun h' => ?_
    simp only [read_eq (hthere h' rhs), write_eq (hthere h' x), ok_bind]
    refine .next rfl ?_
    rw [write_eq (hthere _ rhs)]
    exact .next rfl .done

end Flat

/-- The variables `head` and `cur`, and `next`, a field of the first of two objects. -/
inductive ListPtr
  | head
  | cur
  | next
deriving DecidableEq

inductive Node
  | first
  | second
deriving DecidableEq

instance : Fintype ListPtr :=
  ⟨{.head, .cur, .next}, fun s => by cases s <;> decide⟩

instance : Fintype Node :=
  ⟨{.first, .second}, fun o => by cases o <;> decide⟩

def listLayout : Layout ListPtr Node where
  owner
    | .next => some .first
    | .head | .cur => none
  fields
    | .first => [.next]
    | .second => []
  mem_fields := by decide

/-- Both variables point to the first object and its `next` to the second. -/
def walking : Heap ListPtr Node where
  ptr
    | .next => some .second
    | .head | .cur => some .first
  refCount
    | .first => 2
    | .second => 1
  deletes _ := 0

/-- `cur = cur->next` while `head` keeps the first object. -/
theorem assigned_walking :
    walking.Assigned .cur .next (walking.copyAssign listLayout 2 .cur .next) ∧
      walking.Assigned .cur .next (walking.moveAssign listLayout 2 .cur .next) := by
  have hsound : walking.Sound listLayout (fun _ => 0) := ⟨by decide, by decide⟩
  have hsurvives : ∀ o, listLayout.owner .next = some o →
      ¬ walking.OnlyThrough listLayout (fun _ => 0) .cur o := by
    rintro o howner ⟨_, -, -, howned, -⟩
    obtain rfl : o = .first := by simpa [listLayout] using howner.symm
    obtain ⟨c, hc⟩ := howned .head (by decide) (by decide)
    simp [listLayout] at hc
  have hvariable : listLayout.owner .cur = none := by decide
  have hr : walking.Accessible listLayout .next := by decide
  have h := assigned_iff hsound hvariable hr (by decide) (le_refl 2)
  exact ⟨h.1.mpr hsurvives, h.2.mpr hsurvives⟩

/-- The same list with `head` alone. -/
def popping : Heap ListPtr Node where
  ptr
    | .head => some .first
    | .cur => none
    | .next => some .second
  refCount _ := 1
  deletes _ := 0

/-- `head = head->next`: the release deletes the object that `next` is a field of, and the
assignment reads that field. -/
theorem head_next_deleted : popping.Sound listLayout (fun _ => 0) ∧
    popping.copyAssign listLayout 2 .head .next = .error .deleted ∧
    popping.moveAssign listLayout 2 .head .next = .error .deleted ∧
    ¬ popping.Assigned .head .next (popping.copyAssign listLayout 2 .head .next) ∧
    ¬ popping.Assigned .head .next (popping.moveAssign listLayout 2 .head .next) := by
  have hcopy : popping.copyAssign listLayout 2 .head .next = .error .deleted := rfl
  have hmove : popping.moveAssign listLayout 2 .head .next = .error .deleted := rfl
  refine ⟨⟨by decide, by decide⟩, hcopy, hmove, ?_, ?_⟩
  · rintro ⟨h', h, -⟩
    rw [hcopy] at h
    cases h
  · rintro ⟨h', h, -⟩
    rw [hmove] at h
    cases h

end Heap

end CppServer.RefCounting
