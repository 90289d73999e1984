import CppServer.LockFreeStack.System

namespace CppServer.LockFreeStack

open Function Base

/-- The entry in the hands of a call: the one to be pushed until the exchange,
and the one popped after it. -/
def Pc.entry : Pc → Option Addr
  | .pushRead entry _ _ | .pushLink entry _ | .pushExchange entry _ => some entry
  | .done (.popped (some entry)) => some entry
  | .idle | .popRead _ _ | .popNext _ | .popExchange _ _ | .done _ => none

/-- The sequence was read at a time since the call began, when `count` exchanges
had happened. -/
def ReadAt (begun exchanges count : ℕ) (sequence : BitVec 48) : Prop :=
  begun ≤ count ∧ count ≤ exchanges ∧ sequence = BitVec.ofNat 48 count

/-- What a place in the code says about the values that the call has read. A
link read in a pop is the top's current one, if there was no exchange since the
sequence was read and the entry is still on top. -/
def Local (m : Memory) (begun exchanges : ℕ) : Pc → Prop
  | .pushExchange entry expected => m.next entry = entryOf expected.region.next
  | .popRead alignment _ =>
    ∀ a, alignment = some a → ∃ count, ReadAt begun exchanges count a.sequence
  | .popNext expected => entryOf expected.region.next ≠ 0 ∧
      ∃ count, ReadAt begun exchanges count expected.alignment.sequence
  | .popExchange expected next => entryOf expected.region.next ≠ 0 ∧
      ∃ count, ReadAt begun exchanges count expected.alignment.sequence ∧
        (count = exchanges → expected.region = m.header.region →
          next = m.next (entryOf expected.region.next))
  | _ => True

/-- The header and the links hold the list: its entries in order, its length
modulo 2^16, and the number of exchanges modulo 2^48. -/
structure Holds (m : Memory) (exchanges : ℕ) (stack : List Addr) : Prop where
  linked : Linked 0 m.next (entryOf m.header.region.next) stack
  nodup : stack.Nodup
  aligned : ∀ entry ∈ stack, Aligned entry
  depth : m.header.alignment.depth = BitVec.ofNat 16 stack.length
  sequence : m.header.alignment.sequence = BitVec.ofNat 48 exchanges

/-- The entry in a call's hands is fit for the stack and is nowhere else. -/
def Owned (held : Addr → Bool) (stack : List Addr) (pc : Pc) : Prop :=
  ∀ entry, pc.entry = some entry → Aligned entry ∧ entry ≠ 0 ∧ held entry = false ∧ entry ∉ stack

/-- No entry is in the hands of two calls. -/
def Apart {T : Type} (pc : T → Pc) : Prop :=
  ∀ t u entry, (pc t).entry = some entry → (pc u).entry = some entry → t = u

/-- The invariant. No entry is in two of these places: the stack, the callers'
hands, and the calls' hands. -/
structure Inv {T : Type} (s : Threads T) (stack : List Addr) : Prop where
  holds : Holds s.memory s.exchanges stack
  free : ∀ entry ∈ stack, s.held entry = false
  begun : ∀ t, s.begun t ≤ s.exchanges
  owned : ∀ t, Owned s.held stack (s.pc t)
  apart : Apart s.pc
  place : ∀ t, Local s.memory (s.begun t) s.exchanges (s.pc t)

theorem ReadAt.mono {begun exchanges exchanges' count : ℕ} {sequence : BitVec 48}
    (hread : ReadAt begun exchanges count sequence) (hle : exchanges ≤ exchanges') :
    ReadAt begun exchanges' count sequence :=
  ⟨hread.1, Nat.le_trans hread.2.1 hle, hread.2.2⟩

/-- Within 2^48 exchanges an equal sequence means an equal count. -/
theorem ReadAt.count_eq {begun exchanges count : ℕ} {sequence : BitVec 48}
    (hread : ReadAt begun exchanges count sequence) (hnow : sequence = BitVec.ofNat 48 exchanges)
    (hfew : exchanges - begun < 2 ^ 48) : count = exchanges := by
  obtain ⟨hbegun, hle, hsequence⟩ := hread
  have hmod := congrArg BitVec.toNat (hsequence.symm.trans hnow)
  simp only [BitVec.toNat_ofNat] at hmod
  omega

/-- A call's knowledge survives a write to an entry outside the stack that it
does not rely on. -/
theorem Local.write {m : Memory} {begun exchanges : ℕ} {pc : Pc} {stack : List Addr}
    (hlocal : Local m begun exchanges pc) (hholds : Holds m exchanges stack) {entry : Addr}
    (hout : entry ∉ stack) (hfree : ∀ expected, pc ≠ .pushExchange entry expected) (value : Addr) :
    Local { m with next := update m.next entry value } begun exchanges pc := by
  cases pc with
  | pushExchange entry' expected =>
    have hne : entry' ≠ entry := by
      rintro rfl
      exact hfree expected rfl
    simp only [Local, update_of_ne hne]
    exact hlocal
  | popExchange expected next =>
    obtain ⟨hsome, count, hread, htop⟩ := hlocal
    refine ⟨hsome, count, hread, fun hcount hregion => ?_⟩
    have hne : entryOf expected.region.next ≠ entry := by
      rintro rfl
      have hlinked := hholds.linked
      rw [← hregion] at hlinked
      obtain ⟨rest, rfl, _⟩ := hlinked.exists_cons hsome
      exact hout List.mem_cons_self
    simp only [update_of_ne hne]
    exact htop hcount hregion
  | _ => exact hlocal

/-- After an exchange no count is the current one. -/
theorem Local.exchange {m : Memory} {begun exchanges : ℕ} {pc : Pc}
    (hlocal : Local m begun exchanges pc) (header : SListHeader) :
    Local { m with header := header } begun (exchanges + 1) pc := by
  cases pc with
  | popRead alignment region =>
    intro a ha
    obtain ⟨count, hread⟩ := hlocal a ha
    exact ⟨count, hread.mono (Nat.le_succ _)⟩
  | popNext expected =>
    obtain ⟨hsome, count, hread⟩ := hlocal
    exact ⟨hsome, count, hread.mono (Nat.le_succ _)⟩
  | popExchange expected next =>
    obtain ⟨hsome, count, hread, _⟩ := hlocal
    refine ⟨hsome, count, hread.mono (Nat.le_succ _), fun hcount => ?_⟩
    have hle := hread.2.1
    omega
  | _ => exact hlocal

theorem Holds.write {m : Memory} {exchanges : ℕ} {stack : List Addr}
    (hholds : Holds m exchanges stack) {entry : Addr} (hout : entry ∉ stack) (value : Addr) :
    Holds { m with next := update m.next entry value } exchanges stack :=
  ⟨hholds.linked.update hout value, hholds.nodup, hholds.aligned, hholds.depth, hholds.sequence⟩

/-- The exchange of a push puts its entry on top. -/
theorem Holds.push {m : Memory} {exchanges : ℕ} {stack : List Addr}
    (hholds : Holds m exchanges stack) {entry : Addr} (haligned : Aligned entry) (hne : entry ≠ 0)
    (hout : entry ∉ stack) (hlink : m.next entry = entryOf m.header.region.next) :
    Holds { m with header := desiredPush entry m.header } (exchanges + 1) (entry :: stack) := by
  refine ⟨⟨entryOf_nextOf haligned, hne, ?_⟩, List.nodup_cons.mpr ⟨hout, hholds.nodup⟩, ?_, ?_, ?_⟩
  · change Linked 0 m.next (m.next entry) stack
    rw [hlink]
    exact hholds.linked
  · intro e he
    rcases List.mem_cons.mp he with rfl | he
    · exact haligned
    · exact hholds.aligned e he
  · simp [desiredPush, hholds.depth, BitVec.ofNat_add]
  · simp [desiredPush, hholds.sequence, BitVec.ofNat_add]

/-- The exchange of a pop takes the top off, provided that it puts the top's
current link in its place. -/
theorem Holds.pop {m : Memory} {exchanges : ℕ} {stack : List Addr}
    (hholds : Holds m exchanges stack) (hsome : entryOf m.header.region.next ≠ 0) :
    ∃ rest, stack = entryOf m.header.region.next :: rest ∧
      Holds { m with
        header := desiredPop (m.next (entryOf m.header.region.next)) m.header }
        (exchanges + 1) rest := by
  obtain ⟨hlinked, hnodup, haligned, hdepth, hsequence⟩ := hholds
  obtain ⟨rest, rfl, hrest⟩ := hlinked.exists_cons hsome
  refine ⟨rest, rfl, ?_, (List.nodup_cons.mp hnodup).2,
    fun e he => haligned e (List.mem_cons_of_mem _ he), ?_, ?_⟩
  · have hnext : Aligned (m.next (entryOf m.header.region.next)) := by
      cases rest with
      | nil =>
        rw [show m.next (entryOf m.header.region.next) = 0 from hrest]
        rfl
      | cons next rest =>
        rw [hrest.1]
        exact haligned next (List.mem_cons_of_mem _ List.mem_cons_self)
    change Linked 0 m.next (entryOf (nextOf (m.next (entryOf m.header.region.next)))) rest
    rw [entryOf_nextOf hnext]
    exact hrest
  · simp [desiredPop, hdepth, BitVec.ofNat_add]
  · simp [desiredPop, hsequence, BitVec.ofNat_add]

variable {T : Type} {s : Threads T} {stack : List Addr}

theorem Inv.not_mem_of_held (hinv : Inv s stack) {entry : Addr} (hheld : s.held entry = true) :
    entry ∉ stack := by
  intro hmem
  rw [hinv.free entry hmem] at hheld
  cases hheld

theorem Inv.wrote (hinv : Inv s stack) {entry : Addr} (hout : entry ∉ stack)
    (hfree : ∀ t expected, s.pc t ≠ .pushExchange entry expected) (value : Addr) :
    Inv { s with memory := { s.memory with next := update s.memory.next entry value } } stack :=
  ⟨hinv.holds.write hout value, hinv.free, hinv.begun, hinv.owned, hinv.apart,
    fun t => (hinv.place t).write hinv.holds hout (hfree t) value⟩

variable [DecidableEq T]

theorem Apart.update {pc : T → Pc} (hapart : Apart pc) {t : T} {pc' : Pc}
    (hfresh : ∀ u entry, u ≠ t → pc'.entry = some entry → (pc u).entry ≠ some entry) :
    Apart (update pc t pc') := by
  intro u v entry hu hv
  by_cases hut : u = t
  · by_cases hvt : v = t
    · rw [hut, hvt]
    · rw [hut, update_self] at hu
      rw [update_of_ne hvt] at hv
      exact absurd hv (hfresh v entry hvt hu)
  · rw [update_of_ne hut] at hu
    by_cases hvt : v = t
    · rw [hvt, update_self] at hv
      exact absurd hu (hfresh u entry hut hv)
    · rw [update_of_ne hvt] at hv
      exact hapart u v entry hu hv

/-- A step that only moves a thread in the code, its entry staying in its hands. -/
theorem Inv.moved (hinv : Inv s stack) {t : T} {pc : Pc} (hentry : pc.entry = (s.pc t).entry)
    (hlocal : Local s.memory (s.begun t) s.exchanges pc) :
    Inv { s with pc := update s.pc t pc } stack := by
  refine ⟨hinv.holds, hinv.free, hinv.begun, ?_, ?_, ?_⟩
  · apply (forall_update_iff s.pc fun _ pc => Owned s.held stack pc).mpr
    refine ⟨?_, fun u _ => hinv.owned u⟩
    unfold Owned
    rw [hentry]
    exact hinv.owned t
  · apply hinv.apart.update
    intro u entry hne hpc hu
    exact hne (hinv.apart u t entry hu (hentry ▸ hpc))
  · apply (forall_update_iff s.pc fun u pc => Local s.memory (s.begun u) s.exchanges pc).mpr
    exact ⟨hlocal, fun u _ => hinv.place u⟩

/-- The successful exchange of a push. -/
theorem Inv.pushed (hinv : Inv s stack) {t : T} {entry : Addr}
    (hpc : s.pc t = .pushExchange entry s.memory.header) :
    Inv { s with
      memory := { s.memory with header := desiredPush entry s.memory.header }
      pc := update s.pc t (.done .pushed)
      exchanges := s.exchanges + 1 } (entry :: stack) := by
  have hentry : (s.pc t).entry = some entry := by rw [hpc]; rfl
  obtain ⟨haligned, hne, hheld, hout⟩ := hinv.owned t entry hentry
  have hlink := hinv.place t
  rw [hpc] at hlink
  refine ⟨hinv.holds.push haligned hne hout hlink, ?_, fun u => Nat.le_succ_of_le (hinv.begun u),
    ?_, ?_, ?_⟩
  · intro e he
    rcases List.mem_cons.mp he with rfl | he
    · exact hheld
    · exact hinv.free e he
  · apply (forall_update_iff s.pc fun _ pc => Owned s.held (entry :: stack) pc).mpr
    refine ⟨?_, fun u hu e he => ?_⟩
    · intro e he
      cases he
    · obtain ⟨ha, hn, hh, hs⟩ := hinv.owned u e he
      refine ⟨ha, hn, hh, fun hmem => ?_⟩
      rcases List.mem_cons.mp hmem with rfl | hmem
      · exact hu (hinv.apart u t _ he hentry)
      · exact hs hmem
  · apply hinv.apart.update
    intro u e _ he
    cases he
  · apply (forall_update_iff s.pc fun u pc => Local _ (s.begun u) (s.exchanges + 1) pc).mpr
    exact ⟨trivial, fun u _ => (hinv.place u).exchange _⟩

omit [DecidableEq T] in
/-- At the successful exchange of a pop the sequence in the header is the one that
the call has read, so the link it read is still the top's. -/
theorem Inv.link_eq (hinv : Inv s stack) {t : T} {next : Addr}
    (hpc : s.pc t = .popExchange s.memory.header next) (hfew : s.exchanges - s.begun t < 2 ^ 48) :
    next = s.memory.next (entryOf s.memory.header.region.next) := by
  have hplace := hinv.place t
  rw [hpc] at hplace
  obtain ⟨-, count, hread, htop⟩ := hplace
  exact htop (hread.count_eq hinv.holds.sequence hfew) rfl

/-- The successful exchange of a pop that has the link of the top. -/
theorem Inv.popped (hinv : Inv s stack) {t : T} {next : Addr}
    (hpc : s.pc t = .popExchange s.memory.header next)
    (hlink : next = s.memory.next (entryOf s.memory.header.region.next)) :
    ∃ rest, stack = entryOf s.memory.header.region.next :: rest ∧
      Inv { s with
        memory := { s.memory with header := desiredPop next s.memory.header }
        pc := update s.pc t (.done (.popped (some (entryOf s.memory.header.region.next))))
        exchanges := s.exchanges + 1 } rest := by
  have hplace := hinv.place t
  rw [hpc] at hplace
  have hsome := hplace.1
  subst hlink
  obtain ⟨rest, rfl, hholds⟩ := hinv.holds.pop hsome
  obtain ⟨hfresh, _⟩ := List.nodup_cons.mp hinv.holds.nodup
  refine ⟨rest, rfl, hholds, fun e he => hinv.free e (List.mem_cons_of_mem _ he),
    fun u => Nat.le_succ_of_le (hinv.begun u), ?_, ?_, ?_⟩
  · apply (forall_update_iff s.pc fun _ pc => Owned s.held rest pc).mpr
    refine ⟨fun e he => ?_, fun u _ e he => ?_⟩
    · cases he
      exact ⟨aligned_entryOf _, hsome, hinv.free _ List.mem_cons_self, hfresh⟩
    · obtain ⟨ha, hn, hh, hs⟩ := hinv.owned u e he
      exact ⟨ha, hn, hh, fun hmem => hs (List.mem_cons_of_mem _ hmem)⟩
  · apply hinv.apart.update
    intro u e _ he hu
    cases he
    exact (hinv.owned u _ hu).2.2.2 List.mem_cons_self
  · apply (forall_update_iff s.pc fun u pc => Local _ (s.begun u) (s.exchanges + 1) pc).mpr
    exact ⟨trivial, fun u _ => (hinv.place u).exchange _⟩

theorem inv_start (memory : Memory) (held : Addr → Bool) :
    Inv (Threads.machine T memory held).start [] := by
  refine ⟨⟨rfl, List.nodup_nil, ?_, rfl, rfl⟩, ?_, fun _ => le_refl 0, ?_, ?_, fun _ => trivial⟩
  · exact fun entry hentry => absurd hentry List.not_mem_nil
  · exact fun entry hentry => absurd hentry List.not_mem_nil
  · intro t entry hentry
    cases hentry
  · intro t u entry hentry
    cases hentry

theorem taken_of_not_held {held : Addr → Bool} (op : Op) {entry : Addr} (hnot : held entry = false) :
    op.taken held entry = false := by
  cases op with
  | push entry' =>
    by_cases heq : entry = entry'
    · rw [heq]
      exact update_self entry' false held
    · exact (update_of_ne heq false held).trans hnot
  | pop => exact hnot

/-- A call takes its entry out of the callers' hands. -/
theorem Inv.called (hinv : Inv s stack) {t : T} {op : Op} (hallowed : op.Allowed s.held) :
    Inv { s with
      held := op.taken s.held
      pc := update s.pc t op.entryPoint
      begun := update s.begun t s.exchanges } stack := by
  have hnew (entry : Addr) (h : op.entryPoint.entry = some entry) :
      s.held entry = true ∧ Aligned entry ∧ entry ≠ 0 ∧ op.taken s.held entry = false := by
    cases op with
    | push entry' =>
      cases h
      exact ⟨hallowed.1, hallowed.2.1, hallowed.2.2, by simp [Op.taken]⟩
    | pop => cases h
  refine ⟨hinv.holds, fun entry hmem => taken_of_not_held op (hinv.free entry hmem), ?_, ?_, ?_, ?_⟩
  · apply (forall_update_iff s.begun fun _ begun => begun ≤ s.exchanges).mpr
    exact ⟨le_refl _, fun u _ => hinv.begun u⟩
  · apply (forall_update_iff s.pc fun _ pc => Owned (op.taken s.held) stack pc).mpr
    refine ⟨fun e he => ?_, fun u _ e he => ?_⟩
    · obtain ⟨htrue, haligned, hne, hfalse⟩ := hnew e he
      exact ⟨haligned, hne, hfalse, hinv.not_mem_of_held htrue⟩
    · obtain ⟨haligned, hne, hfalse, hout⟩ := hinv.owned u e he
      exact ⟨haligned, hne, taken_of_not_held op hfalse, hout⟩
  · apply hinv.apart.update
    intro u e _ he hu
    have hfalse := (hinv.owned u e hu).2.2.1
    rw [(hnew e he).1] at hfalse
    cases hfalse
  · intro u
    change Local s.memory (update s.begun t s.exchanges u) s.exchanges (update s.pc t op.entryPoint u)
    by_cases hu : u = t
    · rw [hu, update_self, update_self]
      cases op with
      | push entry => trivial
      | pop => exact fun a ha => absurd ha (Option.some_ne_none a).symm
    · rw [update_of_ne hu, update_of_ne hu]
      exact hinv.place u

/-- A return gives a popped entry to the caller. -/
theorem Inv.returned (hinv : Inv s stack) {t : T} {result : Result}
    (hpc : s.pc t = .done result) :
    Inv { s with held := (s.pc t).returned s.held, pc := update s.pc t .idle } stack := by
  have hheld (entry : Addr) (hne : (s.pc t).entry ≠ some entry) :
      (s.pc t).returned s.held entry = s.held entry := by
    rw [hpc] at hne ⊢
    cases result with
    | pushed => rfl
    | popped popped =>
      cases popped with
      | none => rfl
      | some popped => exact update_of_ne (fun heq => hne (congrArg some heq.symm)) true s.held
  refine ⟨hinv.holds, fun entry hmem => ?_, hinv.begun, ?_, ?_, ?_⟩
  · exact (hheld entry fun h => (hinv.owned t entry h).2.2.2 hmem).trans (hinv.free entry hmem)
  · apply (forall_update_iff s.pc fun _ pc => Owned ((s.pc t).returned s.held) stack pc).mpr
    refine ⟨?_, fun u hu e he => ?_⟩
    · intro e he
      cases he
    · obtain ⟨haligned, hzero, hfalse, hout⟩ := hinv.owned u e he
      exact ⟨haligned, hzero, (hheld e fun h => hu (hinv.apart u t e he h)).trans hfalse, hout⟩
  · apply hinv.apart.update
    intro u e _ he
    cases he
  · apply (forall_update_iff s.pc fun u pc => Local s.memory (s.begun u) s.exchanges pc).mpr
    exact ⟨trivial, fun u _ => hinv.place u⟩

end CppServer.LockFreeStack
