import CppServer.Base.Grid

namespace CppServer.TypeCast

open Base

variable {T : Type}

/-- `Length`. -/
def length : List T → ℤ
  | [] => 0
  | _ :: U => 1 + length U

/-- `TypeAt`; an index that matches no specialization does not compile. -/
def typeAt : List T → ℤ → Option T
  | [], _ => none
  | Head :: Tail, index => if index = 0 then some Head else typeAt Tail (index - 1)

/-- `IndexOf`. -/
def indexOf [DecidableEq T] : List T → T → ℤ
  | [], _ => -1
  | Head :: Tail, t =>
    if Head = t then 0
    else
      let temp := indexOf Tail t
      if temp = -1 then -1 else temp + 1

section Conversion

def sizeofSmall : ℕ := 1

def sizeofBig : ℕ := 4

variable (converts : T → T → Prop) [DecidableRel converts]

/-- The size of what `Test(MakeFrom())` returns: overload resolution prefers
`Test(const To&)` to the ellipsis where the argument converts. -/
def sizeofTest (From To : T) : ℕ := if converts From To then sizeofSmall else sizeofBig

/-- `Conversion<const From*, const To*>::exists`. -/
def Conversion.exists (From To : T) : Bool := sizeofTest converts From To = sizeofSmall

@[simp] theorem Conversion.exists_eq (From To : T) :
    Conversion.exists converts From To = decide (converts From To) := by
  by_cases hconverts : converts From To <;>
    simp [Conversion.exists, sizeofTest, hconverts, sizeofSmall, sizeofBig]

end Conversion

/-- The overloads of `MakeTable`. -/
inductive Overload
  | cell
  | rowEnd
  | tableEnd
deriving DecidableEq

/-- The overload that `MakeTable(Int2Type<i>(), Int2Type<j>())` calls. With both indices at
the end the call is ambiguous. -/
def overload (length i j : ℤ) : Option Overload :=
  if i = length then if j = length then none else some .tableEnd
  else if j = length then some .rowEnd
  else some .cell

/-- The bytes around the start of `s_convert`, by their distance from it. -/
abbrev Bytes := ℤ → Bool

def Bytes.cell (TL : List T) (bytes : Bytes) (i j : ℤ) : Bool := bytes (place (length TL) i j)

/-- `s_convert[i][j] = value`. -/
def Bytes.assign (TL : List T) (bytes : Bytes) (i j : ℤ) (value : Bool) : Bytes :=
  Function.update bytes (place (length TL) i j) value

section Calls

variable (TL : List T) (converts : T → T → Prop) [DecidableRel converts]

/-- `MakeTable`, with fuel for its recursion. -/
def makeTable : ℕ → ℤ → ℤ → Bytes → Option Bytes
  | 0, _, _, _ => none
  | fuel + 1, i, j, bytes =>
    match overload (length TL) i j with
    | none => none
    | some .tableEnd => some bytes
    | some .rowEnd => makeTable fuel (i + 1) 0 bytes
    | some .cell =>
      (typeAt TL i).bind fun FromType => (typeAt TL j).bind fun ToType =>
        makeTable fuel i (j + 1) (bytes.assign TL i j (Conversion.exists converts FromType ToType))

/-- The static data of one type list. -/
structure Statics where
  bytes : Bytes
  /-- The local `conversion` of `CanConvert` has been constructed. -/
  constructed : Bool := false
  /-- The cells that `CanConvert` has read. -/
  reads : List (ℤ × ℤ) := []

/-- `static TypeConversion conversion;` -/
def construct (fuel : ℕ) (s : Statics) : Option Statics :=
  if s.constructed then some s
  else (makeTable TL converts fuel 0 0 s.bytes).map fun bytes =>
    { s with bytes := bytes, constructed := true }

/-- `CanConvert`. -/
def canConvert (fuel : ℕ) (fromId toId : ℤ) (s : Statics) : Option (Bool × Statics) :=
  (construct TL converts fuel s).map fun s =>
    (s.bytes.cell TL fromId toId, { s with reads := (fromId, toId) :: s.reads })

/-- An object of a class that has `DECLARE_TL`. -/
structure Object where
  name : ℕ
  _typeId : ℤ
deriving DecidableEq

/-- `INIT_TL(D)`. -/
def initTL [DecidableEq T] (D : T) (object : Object) : Object := { object with _typeId := indexOf TL D }

/-- A `shared_ptr` that is not null. -/
structure SharedPtr where
  object : Object
  control : ℕ
deriving DecidableEq

/-- A cast from a base class to a derived class keeps the object. -/
def staticCast (object : Object) : Object := object

/-- The result shares the ownership of the argument. -/
def staticPointerCast (ptr : SharedPtr) : SharedPtr := ⟨staticCast ptr.object, ptr.control⟩

variable [DecidableEq T]

/-- What the two forms of `TypeCast` share. -/
def typeCastWith {P : Type} (typeId : P → ℤ) (cast : P → P) (fuel : ℕ) (To : T) (ptr : Option P)
    (s : Statics) : Option (Option P × Statics) :=
  match ptr with
  | none => some (none, s)
  | some p =>
    (canConvert TL converts fuel (typeId p) (indexOf TL To) s).map fun answer =>
      (if answer.1 then some (cast p) else none, answer.2)

/-- What the two forms of `CanCast` share. -/
def canCastWith {P : Type} (typeId : P → ℤ) (fuel : ℕ) (To : T) (ptr : Option P) (s : Statics) :
    Option (Bool × Statics) :=
  match ptr with
  | none => some (false, s)
  | some p => canConvert TL converts fuel (typeId p) (indexOf TL To) s

def typeCast : ℕ → T → Option Object → Statics → Option (Option Object × Statics) :=
  typeCastWith TL converts (·._typeId) staticCast

def typeCastShared : ℕ → T → Option SharedPtr → Statics → Option (Option SharedPtr × Statics) :=
  typeCastWith TL converts (·.object._typeId) staticPointerCast

def canCast : ℕ → T → Option Object → Statics → Option (Bool × Statics) :=
  canCastWith TL converts (·._typeId)

def canCastShared : ℕ → T → Option SharedPtr → Statics → Option (Bool × Statics) :=
  canCastWith TL converts (·.object._typeId)

end Calls

section Reached

variable (TL : List T) (converts : T → T → Prop) [DecidableRel converts]

/-- Static storage is zero before the first use; around the table lies other storage. -/
def initially (around : Bytes) : Statics where
  bytes p := if 0 ≤ p ∧ p < place (length TL) (length TL) 0 then false else around p

/-- The states that calls of `CanConvert` lead to. Nothing else touches the static data. -/
inductive Reached (fuel : ℕ) (around : Bytes) : Statics → Prop
  | initially : Reached fuel around (initially TL around)
  | canConvert {s s' : Statics} {fromId toId : ℤ} {value : Bool} :
      Reached fuel around s → canConvert TL converts fuel fromId toId s = some (value, s') →
      Reached fuel around s'

end Reached

section Lists

variable {TL : List T} {t : T} {index : ℤ}

theorem length_eq (TL : List T) : length TL = TL.length := by
  induction TL with
  | nil => rfl
  | cons Head Tail ih =>
    simp only [length, ih, List.length_cons]
    omega

theorem length_pos (hne : TL ≠ []) : 0 < length TL := by
  rw [length_eq]
  exact_mod_cast List.length_pos_of_ne_nil hne

/-- Each index of the list has a type. -/
theorem exists_typeAt (hnonneg : 0 ≤ index) (hlt : index < length TL) :
    ∃ t, typeAt TL index = some t := by
  induction TL generalizing index with
  | nil => exact absurd hlt (not_lt.mpr hnonneg)
  | cons Head Tail ih =>
    simp only [typeAt]
    simp only [length] at hlt
    by_cases hzero : index = 0
    · exact ⟨Head, if_pos hzero⟩
    · rw [if_neg hzero]
      exact ih (by omega) (by omega)

theorem indexOf_spec [DecidableEq T] (TL : List T) (t : T) :
    (t ∈ TL ∧ 0 ≤ indexOf TL t ∧ indexOf TL t < length TL ∧ typeAt TL (indexOf TL t) = some t) ∨
      (t ∉ TL ∧ indexOf TL t = -1) := by
  induction TL with
  | nil => exact .inr ⟨List.not_mem_nil, rfl⟩
  | cons Head Tail ih =>
    by_cases hhead : Head = t
    · subst hhead
      have hindex : indexOf (Head :: Tail) Head = 0 := if_pos rfl
      have hlength : (0 : ℤ) ≤ length Tail := by
        rw [length_eq]
        exact Int.natCast_nonneg _
      refine .inl ⟨List.mem_cons_self, hindex.ge, ?_, ?_⟩
      · simp only [hindex, length]
        omega
      · rw [hindex]
        exact if_pos rfl
    · rcases ih with ⟨hmem, hnonneg, hlt, htype⟩ | ⟨hmem, hneg⟩
      · have hindex : indexOf (Head :: Tail) t = indexOf Tail t + 1 := by
          simp only [indexOf, if_neg hhead]
          exact if_neg (by omega)
        refine .inl ⟨List.mem_cons_of_mem _ hmem, by omega, ?_, ?_⟩
        · simp only [hindex, length]
          omega
        · simp only [hindex, typeAt]
          rw [if_neg (by omega), Int.add_sub_cancel]
          exact htype
      · refine .inr ⟨?_, ?_⟩
        · rintro (_ | ⟨_, hmem'⟩)
          · exact hhead rfl
          · exact hmem hmem'
        · simp only [indexOf, if_neg hhead]
          exact if_pos hneg

theorem indexOf_of_mem [DecidableEq T] (hmem : t ∈ TL) :
    0 ≤ indexOf TL t ∧ indexOf TL t < length TL ∧ typeAt TL (indexOf TL t) = some t := by
  rcases indexOf_spec TL t with ⟨_, hspec⟩ | ⟨hnot, _⟩
  · exact hspec
  · exact absurd hmem hnot

theorem indexOf_of_not_mem [DecidableEq T] (hmem : t ∉ TL) : indexOf TL t = -1 := by
  rcases indexOf_spec TL t with ⟨hmem', _⟩ | ⟨_, hneg⟩
  · exact absurd hmem' hmem
  · exact hneg

end Lists

section Tables

variable {TL : List T} {converts : T → T → Prop} [DecidableRel converts]

/-- The cell answers for the types at its indices. -/
def Answers (TL : List T) (converts : T → T → Prop) (bytes : Bytes) (i j : ℤ) : Prop :=
  ∃ FromType ToType, typeAt TL i = some FromType ∧ typeAt TL j = some ToType ∧
    (bytes.cell TL i j = true ↔ converts FromType ToType)

/-- All cells with a place below `p` answer. -/
def FilledTo (TL : List T) (converts : T → T → Prop) (bytes : Bytes) (p : ℤ) : Prop :=
  ∀ i j, 0 ≤ i → i < length TL → 0 ≤ j → j < length TL → place (length TL) i j < p →
    Answers TL converts bytes i j

/-- All cells answer. -/
def Filled (TL : List T) (converts : T → T → Prop) (bytes : Bytes) : Prop :=
  ∀ i j, 0 ≤ i → i < length TL → 0 ≤ j → j < length TL → Answers TL converts bytes i j

/-- The stores agree outside the table. -/
def SameAround (TL : List T) (bytes bytes' : Bytes) : Prop :=
  ∀ p, ¬ (0 ≤ p ∧ p < place (length TL) (length TL) 0) → bytes' p = bytes p

variable {bytes bytes' : Bytes} {i j : ℤ}

theorem overload_cell (hi : i < length TL) (hj : j < length TL) :
    overload (length TL) i j = some .cell := by
  simp only [overload, if_neg hi.ne, if_neg hj.ne]

theorem overload_rowEnd (hi : i < length TL) : overload (length TL) i (length TL) = some .rowEnd := by
  simp only [overload, if_neg hi.ne, if_true]

theorem overload_tableEnd (hj : j ≠ length TL) :
    overload (length TL) (length TL) j = some .tableEnd := by
  simp only [overload, if_true, if_neg hj]

/-- The `cell` overload writes what its cell is to answer, and nothing else. -/
theorem FilledTo.assign {From To : T} (hfilled : FilledTo TL converts bytes (place (length TL) i j))
    (hj : 0 ≤ j ∧ j < length TL) (hfrom : typeAt TL i = some From) (hto : typeAt TL j = some To) :
    FilledTo TL converts (bytes.assign TL i j (Conversion.exists converts From To))
      (place (length TL) i (j + 1)) := by
  intro i' j' hi' hilt' hj' hjlt' hlt
  by_cases hplace : place (length TL) i' j' = place (length TL) i j
  · obtain ⟨rfl, rfl⟩ := (place_inj ⟨hj', hjlt'⟩ hj).mp hplace
    refine ⟨From, To, hfrom, hto, ?_⟩
    simp [Bytes.cell, Bytes.assign]
  · rw [place_succ] at hlt
    obtain ⟨From', To', hfrom', hto', hcell⟩ := hfilled i' j' hi' hilt' hj' hjlt' (by omega)
    refine ⟨From', To', hfrom', hto', ?_⟩
    rw [← hcell, Bytes.cell, Bytes.assign, Function.update_of_ne hplace]
    rfl

theorem sameAround_assign {value : Bool} (hi : 0 ≤ i ∧ i < length TL) (hj : 0 ≤ j ∧ j < length TL) :
    SameAround TL bytes (bytes.assign TL i j value) := by
  intro p hp
  have hinside : 0 ≤ place (length TL) i j := place_nonneg hi.1 (by omega) hj.1
  have hbelow := place_lt hi.2 hj
  exact Function.update_of_ne (by omega) _ _

/-- The calls that `MakeTable(Int2Type<i>(), Int2Type<j>())` leads to, itself included. -/
def callsFrom (length i j : ℤ) : ℤ := (length - i) * (length + 1) - j + 1

theorem callsFrom_pos (hi : 0 ≤ i ∧ i ≤ length TL) (hj : 0 ≤ j ∧ j ≤ length TL)
    (hend : i = length TL → j = 0) : 0 < callsFrom (length TL) i j := by
  simp only [callsFrom]
  rcases eq_or_lt_of_le hi.2 with heq | hlt
  · rw [hend heq, heq]
    omega
  · have hrow : 1 * (length TL + 1) ≤ (length TL - i) * (length TL + 1) :=
      Int.mul_le_mul_of_nonneg_right (by omega) (by omega)
    omega

theorem callsFrom_row_end (length i : ℤ) :
    callsFrom length i length = callsFrom length (i + 1) 0 + 1 := by
  simp only [callsFrom]
  ring

/-- The recursion ends within the fuel, and the table is filled row by row. -/
theorem makeTable_spec (hne : TL ≠ []) {fuel : ℕ} (hi : 0 ≤ i ∧ i ≤ length TL)
    (hj : 0 ≤ j ∧ j ≤ length TL) (hend : i = length TL → j = 0)
    (hfuel : callsFrom (length TL) i j ≤ fuel)
    (hfilled : FilledTo TL converts bytes (place (length TL) i j)) :
    ∃ bytes', makeTable TL converts fuel i j bytes = some bytes' ∧ Filled TL converts bytes' ∧
      SameAround TL bytes bytes' := by
  induction fuel generalizing i j bytes with
  | zero =>
    have hpos := callsFrom_pos hi hj hend
    omega
  | succ fuel ih =>
    have hlength := length_pos hne
    rcases eq_or_lt_of_le hi.2 with rfl | hilt
    · refine ⟨bytes, ?_, ?_, fun _ _ => rfl⟩
      · rw [makeTable, overload_tableEnd (by rw [hend rfl]; exact hlength.ne)]
      · intro i' j' hi' hilt' hj' hjlt'
        refine hfilled i' j' hi' hilt' hj' hjlt' ?_
        rw [hend rfl]
        exact place_lt hilt' ⟨hj', hjlt'⟩
    · rcases eq_or_lt_of_le hj.2 with rfl | hjlt
      · rw [makeTable, overload_rowEnd hilt]
        rw [place_row_end] at hfilled
        rw [callsFrom_row_end] at hfuel
        exact ih ⟨by omega, hilt⟩ ⟨le_rfl, hlength.le⟩ (fun _ => rfl) (by omega) hfilled
      · obtain ⟨From, hfrom⟩ := exists_typeAt hi.1 hilt
        obtain ⟨To, hto⟩ := exists_typeAt hj.1 hjlt
        rw [makeTable, overload_cell hilt hjlt]
        simp only [hfrom, hto, Option.bind_some]
        have hnext := hfilled.assign ⟨hj.1, hjlt⟩ hfrom hto
        simp only [callsFrom] at hfuel ih
        obtain ⟨bytes', hmake, htable, haround⟩ :=
          ih hi ⟨by omega, hjlt⟩ (fun heq => absurd heq hilt.ne) (by omega) hnext
        refine ⟨bytes', hmake, htable, fun p hp => ?_⟩
        rw [haround p hp, sameAround_assign ⟨hi.1, hilt⟩ ⟨hj.1, hjlt⟩ p hp]

/-- Fuel that lets the table be made. -/
def enough (TL : List T) : ℕ := TL.length * (TL.length + 1) + 1

variable (converts) in
theorem makeTable_filled (hne : TL ≠ []) {fuel : ℕ} (hfuel : enough TL ≤ fuel) (bytes : Bytes) :
    ∃ bytes', makeTable TL converts fuel 0 0 bytes = some bytes' ∧ Filled TL converts bytes' ∧
      SameAround TL bytes bytes' := by
  have hlength := length_pos hne
  refine makeTable_spec hne ⟨le_rfl, hlength.le⟩ ⟨le_rfl, hlength.le⟩ (fun _ => rfl) ?_ ?_
  · simp only [callsFrom, sub_zero, length_eq]
    exact_mod_cast hfuel
  · intro i j hi hilt hj hjlt hlt
    have hnonneg := place_nonneg hi hlength.le hj
    have hzero : place (length TL) 0 0 = 0 := by simp [place]
    omega

end Tables

section Statics

variable {TL : List T} {converts : T → T → Prop} [DecidableRel converts] {fuel : ℕ} {around : Bytes}
  {s s' : Statics} {fromId toId : ℤ} {value : Bool}

/-- The table is filled once `conversion` is constructed, and the storage around it is kept. -/
structure Kept (TL : List T) (converts : T → T → Prop) (around : Bytes) (s : Statics) : Prop where
  filled : s.constructed = true → Filled TL converts s.bytes
  outside : ∀ p, ¬ (0 ≤ p ∧ p < place (length TL) (length TL) 0) → s.bytes p = around p

theorem construct_spec (hne : TL ≠ []) (hfuel : enough TL ≤ fuel) (hkept : Kept TL converts around s) :
    ∃ s', construct TL converts fuel s = some s' ∧ Kept TL converts around s' ∧
      s'.constructed = true ∧ s'.reads = s.reads := by
  by_cases hdone : s.constructed = true
  · exact ⟨s, if_pos hdone, hkept, hdone, rfl⟩
  · obtain ⟨bytes', hmake, htable, haround⟩ := makeTable_filled converts hne hfuel s.bytes
    refine ⟨{ s with bytes := bytes', constructed := true }, ?_, ⟨fun _ => htable, fun p hp => ?_⟩,
      rfl, rfl⟩
    · rw [construct, if_neg hdone, hmake]
      rfl
    · exact (haround p hp).trans (hkept.outside p hp)

/-- `CanConvert` returns the cell of a filled table. -/
theorem canConvert_spec (hne : TL ≠ []) (hfuel : enough TL ≤ fuel) (hkept : Kept TL converts around s)
    (fromId toId : ℤ) :
    ∃ s', canConvert TL converts fuel fromId toId s = some (s'.bytes.cell TL fromId toId, s') ∧
      Kept TL converts around s' ∧ Filled TL converts s'.bytes ∧
      s'.reads = (fromId, toId) :: s.reads := by
  obtain ⟨s', hconstruct, hkept', hdone, hreads⟩ := construct_spec hne hfuel hkept
  refine ⟨{ s' with reads := (fromId, toId) :: s'.reads }, ?_, ⟨hkept'.filled, hkept'.outside⟩,
    hkept'.filled hdone, by rw [hreads]⟩
  rw [canConvert, hconstruct]
  rfl

omit [DecidableRel converts] in
theorem kept_initially : Kept TL converts around (initially TL around) where
  filled := fun hdone => absurd hdone Bool.false_ne_true
  outside := fun _ hp => if_neg hp

/-- All calls keep the static data as they should be. -/
theorem Reached.kept (hne : TL ≠ []) (hfuel : enough TL ≤ fuel)
    (hreached : Reached TL converts fuel around s) : Kept TL converts around s := by
  induction hreached with
  | initially => exact kept_initially
  | canConvert _ hcall ih =>
    obtain ⟨s', hspec, hkept, _⟩ := canConvert_spec hne hfuel ih _ _
    rw [hspec] at hcall
    cases hcall
    exact hkept

end Statics

section Casts

variable [DecidableEq T] {TL : List T} {converts : T → T → Prop} [DecidableRel converts] {fuel : ℕ}
  {around : Bytes} {s : Statics} {P : Type}

/-- Both forms of `TypeCast` answer by the cell of the object's id and the index of `To`. -/
theorem typeCastWith_spec (hne : TL ≠ []) (hfuel : enough TL ≤ fuel)
    (hkept : Kept TL converts around s) (typeId : P → ℤ) (cast : P → P) (To : T) (p : P) :
    ∃ s', typeCastWith TL converts typeId cast fuel To (some p) s =
        some (if s'.bytes.cell TL (typeId p) (indexOf TL To) then some (cast p) else none, s') ∧
      Kept TL converts around s' ∧ Filled TL converts s'.bytes ∧
      s'.reads = (typeId p, indexOf TL To) :: s.reads := by
  obtain ⟨s', hcall, hspec⟩ := canConvert_spec hne hfuel hkept (typeId p) (indexOf TL To)
  refine ⟨s', ?_, hspec⟩
  rw [typeCastWith, hcall]
  rfl

omit [DecidableRel converts] in
/-- The cell for two listed types. -/
theorem Filled.cell_indexOf {bytes : Bytes} {D To : T} (hfilled : Filled TL converts bytes)
    (hD : D ∈ TL) (hTo : To ∈ TL) :
    bytes.cell TL (indexOf TL D) (indexOf TL To) = true ↔ converts D To := by
  obtain ⟨hD0, hDlt, htypeD⟩ := indexOf_of_mem hD
  obtain ⟨hTo0, hTolt, htypeTo⟩ := indexOf_of_mem hTo
  obtain ⟨From', To', hfrom, hto, hcell⟩ := hfilled _ _ hD0 hDlt hTo0 hTolt
  rw [htypeD] at hfrom
  rw [htypeTo] at hto
  cases hfrom
  cases hto
  exact hcell

theorem typeCastWith_isSome (hne : TL ≠ []) (hfuel : enough TL ≤ fuel)
    (hkept : Kept TL converts around s) (typeId : P → ℤ) (cast : P → P) {D To : T} {p : P}
    (hp : typeId p = indexOf TL D) (hD : D ∈ TL) (hTo : To ∈ TL) :
    ∃ q s', typeCastWith TL converts typeId cast fuel To (some p) s = some (q, s') ∧
      (q ≠ none ↔ converts D To) := by
  obtain ⟨s', hcall, _, hfilled, _⟩ := typeCastWith_spec hne hfuel hkept typeId cast To p
  refine ⟨_, s', hcall, ?_⟩
  rw [hp, ← hfilled.cell_indexOf hD hTo]
  split <;> simp [*]

theorem canCastWith_eq_true (hne : TL ≠ []) (hfuel : enough TL ≤ fuel)
    (hkept : Kept TL converts around s) (typeId : P → ℤ) {D To : T} {p : P}
    (hp : typeId p = indexOf TL D) (hD : D ∈ TL) (hTo : To ∈ TL) :
    ∃ b s', canCastWith TL converts typeId fuel To (some p) s = some (b, s') ∧
      (b = true ↔ converts D To) := by
  obtain ⟨s', hcall, _, hfilled, _⟩ := canConvert_spec hne hfuel hkept (typeId p) (indexOf TL To)
  refine ⟨_, s', hcall, ?_⟩
  rw [hp]
  exact hfilled.cell_indexOf hD hTo

/-- For listed types the casts agree with the class hierarchy: the table is made and answers for
the types at its indices, each listed type is found at its index, and an object of `D` is cast
to `To` exactly if `const D*` converts to `const To*`. -/
theorem cast_listed (TL : List T) (hne : TL ≠ []) (converts : T → T → Prop) [DecidableRel converts]
    (fuel : ℕ) (hfuel : enough TL ≤ fuel) :
    (∀ bytes, ∃ bytes', makeTable TL converts fuel 0 0 bytes = some bytes' ∧
      ∀ i j, 0 ≤ i → i < length TL → 0 ≤ j → j < length TL →
        ∃ FromType ToType, typeAt TL i = some FromType ∧ typeAt TL j = some ToType ∧
          (bytes'.cell TL i j = true ↔ converts FromType ToType)) ∧
    (∀ t ∈ TL, typeAt TL (indexOf TL t) = some t) ∧
    ∀ around s, Reached TL converts fuel around s → ∀ D ∈ TL, ∀ To ∈ TL, ∀ object control,
      (∃ p s', typeCast TL converts fuel To (some (initTL TL D object)) s = some (p, s') ∧
        (p ≠ none ↔ converts D To)) ∧
      (∃ p s', typeCastShared TL converts fuel To (some ⟨initTL TL D object, control⟩) s = some (p, s') ∧
        (p ≠ none ↔ converts D To)) ∧
      (∃ b s', canCast TL converts fuel To (some (initTL TL D object)) s = some (b, s') ∧
        (b = true ↔ converts D To)) ∧
      (∃ b s', canCastShared TL converts fuel To (some ⟨initTL TL D object, control⟩) s = some (b, s') ∧
        (b = true ↔ converts D To)) := by
  refine ⟨fun bytes => ?_, fun t ht => (indexOf_of_mem ht).2.2, ?_⟩
  · obtain ⟨bytes', hmake, hfilled, _⟩ := makeTable_filled converts hne hfuel bytes
    exact ⟨bytes', hmake, hfilled⟩
  · intro around s hreached D hD To hTo object control
    have hkept := hreached.kept hne hfuel
    exact ⟨typeCastWith_isSome hne hfuel hkept _ _ rfl hD hTo,
      typeCastWith_isSome hne hfuel hkept _ _ rfl hD hTo,
      canCastWith_eq_true hne hfuel hkept _ rfl hD hTo, canCastWith_eq_true hne hfuel hkept _ rfl hD hTo⟩

/-- The cells that a call reads lie in the table. -/
def ReadsInside (TL : List T) (s s' : Statics) : Prop :=
  ∀ cells, s'.reads = cells ++ s.reads → ∀ cell ∈ cells,
    (0 ≤ cell.1 ∧ cell.1 < length TL) ∧ 0 ≤ cell.2 ∧ cell.2 < length TL

/-- `TypeCast<To*>` returns `nullptr` and `CanCast<To*>` returns `false`, and both read the table
within its bounds. -/
def Refused (TL : List T) (converts : T → T → Prop) [DecidableRel converts] (fuel : ℕ) (To : T)
    (object : Object) (s : Statics) : Prop :=
  (∃ s', typeCast TL converts fuel To (some object) s = some (none, s') ∧ ReadsInside TL s s') ∧
    ∃ s', canCast TL converts fuel To (some object) s = some (false, s') ∧ ReadsInside TL s s'

omit [DecidableRel converts] in
/-- The cell before the row of an object's type: that of the type before and the last one, and for
the first type of the list what lies before the table. -/
theorem cell_neg_one (hne : TL ≠ []) (hkept : Kept TL converts around s)
    (hfilled : Filled TL converts s.bytes) {D : T} (hD : D ∈ TL) :
    (indexOf TL D = 0 → s.bytes.cell TL (indexOf TL D) (-1) = around (-1)) ∧
      (indexOf TL D ≠ 0 → ∃ before last, typeAt TL (indexOf TL D - 1) = some before ∧
        typeAt TL (length TL - 1) = some last ∧
        (s.bytes.cell TL (indexOf TL D) (-1) = true ↔ converts before last)) := by
  have hlength := length_pos hne
  obtain ⟨hD0, hDlt, _⟩ := indexOf_of_mem hD
  refine ⟨fun hfirst => ?_, fun hlater => ?_⟩
  · rw [hfirst, Bytes.cell, hkept.outside]
    · simp [place]
    · simp [place]
  · obtain ⟨before, last, hbefore, hlast, hcell⟩ :=
      hfilled (indexOf TL D - 1) (length TL - 1) (by omega) (by omega) (by omega) (by omega)
    refine ⟨before, last, hbefore, hlast, ?_⟩
    rw [← hcell, Bytes.cell, Bytes.cell, place_neg_one]

/-- No cast to a type that is not listed is refused within the bounds of the table. The casts
answer for the type listed before that of the object and the last type of the list, and for an
object of the first type by what lies before the table. -/
theorem cast_unlisted (TL : List T) (hne : TL ≠ []) (converts : T → T → Prop)
    [DecidableRel converts] (fuel : ℕ) (hfuel : enough TL ≤ fuel) {around : Bytes} {s : Statics}
    (hreached : Reached TL converts fuel around s) {D To : T} (hD : D ∈ TL) (hTo : To ∉ TL)
    (object : Object) :
    ¬ Refused TL converts fuel To (initTL TL D object) s ∧
      ∃ b s', typeCast TL converts fuel To (some (initTL TL D object)) s =
          some (if b then some (initTL TL D object) else none, s') ∧
        canCast TL converts fuel To (some (initTL TL D object)) s = some (b, s') ∧
        (indexOf TL D = 0 → b = around (-1)) ∧
        (indexOf TL D ≠ 0 → ∃ before last, typeAt TL (indexOf TL D - 1) = some before ∧
          typeAt TL (length TL - 1) = some last ∧ (b = true ↔ converts before last)) := by
  obtain ⟨s', hcall, hkept, hfilled, hreads⟩ := canConvert_spec hne hfuel (hreached.kept hne hfuel)
    (indexOf TL D) (-1)
  have hcast : typeCast TL converts fuel To (some (initTL TL D object)) s =
      some (if s'.bytes.cell TL (indexOf TL D) (-1) then some (initTL TL D object) else none, s') := by
    rw [typeCast, typeCastWith, initTL, indexOf_of_not_mem hTo, hcall]
    rfl
  have hcan : canCast TL converts fuel To (some (initTL TL D object)) s =
      some (s'.bytes.cell TL (indexOf TL D) (-1), s') := by
    rw [canCast, canCastWith, initTL, indexOf_of_not_mem hTo, hcall]
  refine ⟨?_, _, s', hcast, hcan, cell_neg_one hne hkept hfilled hD⟩
  rintro ⟨-, t, hcan', hinside⟩
  have heq : t = s' := congrArg Prod.snd (Option.some.inj (hcan'.symm.trans hcan))
  subst heq
  obtain ⟨_, hcolumn, _⟩ := hinside [(indexOf TL D, -1)] hreads _ List.mem_cons_self
  exact absurd hcolumn (not_le_of_gt (by norm_num))

end Casts

section Examples

/-- A player and its subclasses. -/
inductive Creature
  | player
  | knight
  | mage
  | dog
deriving DecidableEq

/-- Each class derives from `player` alone. -/
def Creature.converts (From To : Creature) : Prop := From = To ∨ To = .player

instance Creature.decidableConverts : DecidableRel Creature.converts :=
  fun _ _ => inferInstanceAs (Decidable (_ ∨ _))

/-- The subclass `dog` is not listed. -/
def listed : List Creature := [.knight, .mage, .player]

theorem knight_cast_to_player :
    ∃ p s', typeCast listed Creature.converts 13 .player (some (initTL listed .knight ⟨7, 0⟩))
        (initially listed fun _ => false) = some (p, s') ∧
      (p ≠ none ↔ Creature.knight.converts .player) :=
  ((cast_listed listed (by decide) Creature.converts 13 (by decide)).2.2 _ _ .initially
    .knight (by decide) .player (by decide) ⟨7, 0⟩ 0).1

/-- A `mage` is cast to a `dog`, since a `knight` is a `player`. -/
theorem mage_cast_to_dog :
    Creature.mage ∈ listed ∧ Creature.dog ∉ listed ∧
    ((typeCast listed Creature.converts 13 .dog (some (initTL listed .mage ⟨7, 0⟩))
        (initially listed fun _ => false)).map Prod.fst = some (some ⟨7, 1⟩)) ∧
    ((canCast listed Creature.converts 13 .dog (some (initTL listed .mage ⟨7, 0⟩))
        (initially listed fun _ => false)).map Prod.fst = some true) ∧
    ¬ Refused listed Creature.converts 13 .dog (initTL listed .mage ⟨7, 0⟩)
      (initially listed fun _ => false) := by
  refine ⟨by decide, by decide, by decide, by decide, ?_⟩
  rintro ⟨⟨s', hcall, _⟩, _⟩
  have hvalue : (typeCast listed Creature.converts 13 .dog (some (initTL listed .mage ⟨7, 0⟩))
      (initially listed fun _ => false)).map Prod.fst = some none := by rw [hcall]; rfl
  exact absurd hvalue (by decide)

theorem mage_not_refused :
    ¬ Refused listed Creature.converts 13 .dog (initTL listed .mage ⟨7, 0⟩)
      (initially listed fun _ => false) :=
  (cast_unlisted listed (by decide) Creature.converts 13 (by decide) .initially
    (by decide) (by decide) ⟨7, 0⟩).1

end Examples

end CppServer.TypeCast
