import CppServer.Base.Machine
import CppServer.Lock.System

namespace CppServer

/-- The life of a thread: launched, past `InitTLS` with its `LThreadId`, and
past `DestroyTLS`. -/
inductive Phase
  | starting
  | running (lThreadId : BitVec 32)
  | finished (lThreadId : BitVec 32)
deriving DecidableEq, Repr

def Phase.lThreadId : Phase → Option (BitVec 32)
  | .starting => none
  | .running lThreadId => some lThreadId
  | .finished lThreadId => some lThreadId

/-- The static counter of `InitTLS` and every thread of the process, in the
order of their creation; thread 0 is the main thread, whose `InitTLS` is the
constructor's. `issued` is bookkeeping: the threads in the order of their
`InitTLS`. -/
structure ThreadManager where
  sThreadId : BitVec 32 := 1
  threads : List Phase := [.starting]
  issued : List ℕ := []
deriving DecidableEq

namespace ThreadManager

/-- `LThreadId` of a thread that has one, also after its end. -/
def lThreadId (s : ThreadManager) (t : ℕ) : Option (BitVec 32) := s.threads[t]?.bind Phase.lThreadId

inductive Act
  | launch (caller : ℕ)
  | initTLS (t : ℕ)
  | finish (t : ℕ)
deriving DecidableEq

/-- The counter is atomic and never reset, so an id is issued in one step. -/
def initTLS (s : ThreadManager) (t : ℕ) : ThreadManager :=
  { sThreadId := s.sThreadId + 1
    threads := s.threads.set t (.running s.sThreadId)
    issued := s.issued ++ [t] }

def step (s : ThreadManager) : Act → Option ThreadManager
  -- the mutex makes `Launch` one step; callbacks may call it as well
  | .launch caller =>
    match s.threads[caller]? with
    | some (.running _) => some { s with threads := s.threads ++ [.starting] }
    | _ => none
  | .initTLS t =>
    match s.threads[t]? with
    | some .starting => some (s.initTLS t)
    | _ => none
  -- the callback has returned; `DestroyTLS` gives nothing back
  | .finish t =>
    match s.threads[t]? with
    | some (.running lThreadId) =>
      if t ≠ 0 then some { s with threads := s.threads.set t (.finished lThreadId) } else none
    | _ => none

/-- The process, with any number of launches. -/
def machine : Base.Machine ThreadManager Act where
  start := {}
  step := step

/-- A thread that has ended stays so. -/
theorem finished_of_step {s s' : ThreadManager} {a : Act} (hstep : s.step a = some s') {t : ℕ}
    {lThreadId : BitVec 32} (ht : s.threads[t]? = some (.finished lThreadId)) :
    s'.threads[t]? = some (.finished lThreadId) := by
  cases a with
  | launch caller =>
    simp only [step] at hstep
    split at hstep
    case h_1 =>
      cases hstep
      exact (List.getElem?_append_left (List.getElem?_eq_some_iff.mp ht).1).trans ht
    case h_2 => cases hstep
  | initTLS u =>
    simp only [step] at hstep
    split at hstep
    case h_1 hu =>
      cases hstep
      rw [initTLS, List.getElem?_set_ne, ht]
      rintro rfl
      simp [ht] at hu
    case h_2 => cases hstep
  | finish u =>
    simp only [step] at hstep
    split at hstep
    case h_1 hu =>
      split at hstep
      case isTrue =>
        cases hstep
        rw [List.getElem?_set_ne, ht]
        rintro rfl
        simp [ht] at hu
      case isFalse => cases hstep
    case h_2 => cases hstep

/-- Only `Launch` creates threads. -/
theorem length_of_step {s s' : ThreadManager} {a : Act} (hstep : s.step a = some s')
    (ha : ∀ caller, a ≠ .launch caller) : s'.threads.length = s.threads.length := by
  cases a with
  | launch caller => exact absurd rfl (ha caller)
  | initTLS u =>
    simp only [step] at hstep
    split at hstep
    case h_1 =>
      cases hstep
      simp [initTLS]
    case h_2 => cases hstep
  | finish u =>
    simp only [step] at hstep
    split at hstep
    case h_1 =>
      split at hstep
      case isTrue =>
        cases hstep
        simp
      case isFalse => cases hstep
    case h_2 => cases hstep

theorem launch_spec {s s' : ThreadManager} {caller : ℕ} (hstep : s.step (.launch caller) = some s') :
    (∃ lThreadId, s.threads[caller]? = some (.running lThreadId)) ∧
      s' = { s with threads := s.threads ++ [.starting] } := by
  simp only [step] at hstep
  split at hstep
  case h_1 lThreadId hcaller =>
    cases hstep
    exact ⟨⟨lThreadId, hcaller⟩, rfl⟩
  case h_2 => cases hstep

theorem initTLS_spec {s s' : ThreadManager} {t : ℕ} (hstep : s.step (.initTLS t) = some s') :
    s.threads[t]? = some .starting ∧ s' = s.initTLS t := by
  simp only [step] at hstep
  split at hstep
  case h_1 ht =>
    cases hstep
    exact ⟨ht, rfl⟩
  case h_2 => cases hstep

theorem finish_spec {s s' : ThreadManager} {t : ℕ} (hstep : s.step (.finish t) = some s') :
    ∃ lThreadId, s.threads[t]? = some (.running lThreadId) ∧
      s' = { s with threads := s.threads.set t (.finished lThreadId) } := by
  simp only [step] at hstep
  split at hstep
  case h_1 lThreadId ht =>
    split at hstep
    case isTrue =>
      cases hstep
      exact ⟨lThreadId, ht, rfl⟩
    case isFalse => cases hstep
  case h_2 => cases hstep

/-- What the word of a lock says about two threads with the ids `mine` and
`other`: their tags are writer tags and differ, and the owner test of the first
accepts the words that carry its tag and refuses those that carry the tag of
the second or none. -/
structure TellApart (mine other : BitVec 32) : Prop where
  nonzero : desired mine ≠ 0
  differ : desired mine ≠ desired other
  accepts : ∀ flag, flag &&& writeThreadMask = desired mine → mine = lockThreadId flag
  refuses : ∀ flag, flag &&& writeThreadMask = desired other → mine ≠ lockThreadId flag
  unowned : ∀ flag, flag &&& writeThreadMask = emptyFlag → mine ≠ lockThreadId flag

/-- Writer tags identify the threads that have an id. -/
def TagsIdentify (s : ThreadManager) : Prop :=
  ∀ t u x y, t ≠ u → s.lThreadId t = some x → s.lThreadId u = some y → TellApart x y

/-- The id given to the thread that calls `InitTLS` as number `k`, from 0. -/
def idOf (k : ℕ) : BitVec 32 := BitVec.ofNat 32 (1 + k)

/-- Ids are issued in order, one for each call of `InitTLS`. -/
structure Inv (s : ThreadManager) : Prop where
  counter : s.sThreadId = idOf s.issued.length
  nodup : s.issued.Nodup
  ids : ∀ t x, s.lThreadId t = some x ↔ ∃ k, s.issued[k]? = some t ∧ x = idOf k

theorem lThreadId_set {s : ThreadManager} {t : ℕ} {phase : Phase} (ht : t < s.threads.length)
    (sThreadId : BitVec 32) (issued : List ℕ) (u : ℕ) :
    lThreadId ⟨sThreadId, s.threads.set t phase, issued⟩ u =
      if t = u then phase.lThreadId else s.lThreadId u := by
  unfold lThreadId
  rw [List.getElem?_set]
  split
  case isTrue h => rfl
  case isFalse => rfl

theorem lThreadId_launch (s : ThreadManager) (t : ℕ) :
    lThreadId { s with threads := s.threads ++ [.starting] } t = s.lThreadId t := by
  unfold lThreadId
  rw [List.getElem?_append]
  split
  case isTrue => rfl
  case isFalse hge =>
    rw [List.getElem?_eq_none (Nat.le_of_not_lt hge), List.getElem?_singleton]
    split <;> rfl

theorem lThreadId_of_running {s : ThreadManager} {t : ℕ} {lThreadId : BitVec 32}
    (ht : s.threads[t]? = some (.running lThreadId)) : s.lThreadId t = some lThreadId := by
  simp [ThreadManager.lThreadId, ht, Phase.lThreadId]

/-- An id stays with its thread. -/
theorem lThreadId_of_step {s s' : ThreadManager} {a : Act} (hstep : s.step a = some s') {t : ℕ}
    {lThreadId : BitVec 32} (ht : s.lThreadId t = some lThreadId) :
    s'.lThreadId t = some lThreadId := by
  cases a with
  | launch caller =>
    obtain ⟨-, rfl⟩ := launch_spec hstep
    exact (lThreadId_launch s t).trans ht
  | initTLS u =>
    obtain ⟨hu, rfl⟩ := initTLS_spec hstep
    rw [initTLS, lThreadId_set (List.getElem?_eq_some_iff.mp hu).1]
    split
    case isTrue h =>
      subst h
      simp [ThreadManager.lThreadId, hu, Phase.lThreadId] at ht
    case isFalse => exact ht
  | finish u =>
    obtain ⟨x, hu, rfl⟩ := finish_spec hstep
    rw [lThreadId_set (List.getElem?_eq_some_iff.mp hu).1]
    split
    case isTrue h =>
      subst h
      exact (lThreadId_of_running hu).symm.trans ht
    case isFalse => exact ht

theorem inv_start : Inv machine.start := by
  refine ⟨rfl, List.nodup_nil, fun t x => ⟨fun h => ?_, fun ⟨k, hk, _⟩ => by simp [machine] at hk⟩⟩
  simp only [lThreadId, machine, Option.bind_eq_some_iff] at h
  obtain ⟨phase, hphase, hid⟩ := h
  obtain ⟨_, rfl⟩ := List.getElem?_eq_some_iff.mp hphase
  simp [Phase.lThreadId] at hid

/-- The next id goes to a thread that has none. -/
theorem Inv.initTLS {s : ThreadManager} (hinv : Inv s) {t : ℕ}
    (ht : s.threads[t]? = some .starting) : Inv (s.initTLS t) := by
  obtain ⟨hcounter, hnodup, hids⟩ := hinv
  have hnone : s.lThreadId t = none := by simp [lThreadId, ht, Phase.lThreadId]
  have hfresh : t ∉ s.issued := by
    intro hmem
    obtain ⟨k, hk⟩ := List.mem_iff_getElem?.mp hmem
    rw [(hids t (idOf k)).mpr ⟨k, hk, rfl⟩] at hnone
    cases hnone
  refine ⟨?_, ?_, fun u x => ?_⟩
  · simp only [ThreadManager.initTLS, hcounter, idOf, List.length_append, List.length_singleton]
    rw [← Nat.add_assoc, BitVec.ofNat_add _ 1]
    rfl
  · rw [ThreadManager.initTLS, ← List.concat_eq_append]
    exact hnodup.concat hfresh
  · rw [ThreadManager.initTLS, lThreadId_set (List.getElem?_eq_some_iff.mp ht).1]
    by_cases hu : t = u
    · subst hu
      rw [if_pos rfl]
      constructor
      · intro h
        cases h
        exact ⟨s.issued.length, by simp, hcounter⟩
      · rintro ⟨k, hk, rfl⟩
        rw [List.getElem?_append] at hk
        split at hk
        case isTrue => exact absurd (List.mem_of_getElem? hk) hfresh
        case isFalse hge =>
          rw [List.getElem?_singleton] at hk
          split at hk
          case isTrue hzero =>
            have hk : k = s.issued.length := by omega
            rw [hk, ← hcounter]
            rfl
          case isFalse => cases hk
    · rw [if_neg hu, hids u x]
      apply exists_congr
      intro k
      rw [List.getElem?_append]
      split
      case isTrue => rfl
      case isFalse hge =>
        rw [List.getElem?_eq_none (Nat.le_of_not_lt hge), List.getElem?_singleton]
        split <;> simp [hu]

theorem inv_step {s s' : ThreadManager} {a : Act} (hinv : Inv s) (hstep : step s a = some s') :
    Inv s' := by
  cases a with
  | launch caller =>
    simp only [step] at hstep
    split at hstep
    case h_1 =>
      cases hstep
      exact ⟨hinv.counter, hinv.nodup, fun t x => by rw [lThreadId_launch]; exact hinv.ids t x⟩
    case h_2 => cases hstep
  | initTLS t =>
    simp only [step] at hstep
    split at hstep
    case h_1 ht =>
      cases hstep
      exact hinv.initTLS ht
    case h_2 => cases hstep
  | finish t =>
    simp only [step] at hstep
    split at hstep
    case h_1 x ht =>
      split at hstep
      case isTrue =>
        cases hstep
        refine ⟨hinv.counter, hinv.nodup, fun u y => ?_⟩
        rw [lThreadId_set (List.getElem?_eq_some_iff.mp ht).1, ← hinv.ids]
        split
        case isTrue h => simp [← h, lThreadId, ht, Phase.lThreadId]
        case isFalse => rfl
      case isFalse => cases hstep
    case h_2 => cases hstep

theorem inv_run {as : List Act} {s : ThreadManager} (hrun : machine.Run Base.Machine.Any as s) :
    Inv s :=
  hrun.invariant inv_start fun _ _ _ hinv _ hstep => inv_step hinv hstep

theorem lockThreadId_of_tag {flag lThreadId : BitVec 32}
    (htag : flag &&& writeThreadMask = desired lThreadId) :
    (lockThreadId flag).toNat = lThreadId.toNat % 65536 := by
  rw [lockThreadId, htag, BitVec.toNat_ushiftRight, Nat.shiftRight_eq_div_pow, desired_toNat]
  omega

theorem lockThreadId_of_untagged {flag : BitVec 32} (htag : flag &&& writeThreadMask = emptyFlag) :
    (lockThreadId flag).toNat = 0 := by
  rw [lockThreadId, htag]
  rfl

/-- Different nonzero ids of 16 bits are told apart. -/
theorem tellApart_of_narrow {mine other : BitVec 32} (hpositive : 0 < mine.toNat)
    (hmine : mine.toNat ≤ 65535) (hother : other.toNat ≤ 65535) (hne : mine.toNat ≠ other.toNat) :
    TellApart mine other := by
  refine ⟨fun h => ?_, fun h => ?_, fun flag htag => ?_, fun flag htag h => ?_, fun flag htag h => ?_⟩
  · have h := congrArg BitVec.toNat h
    rw [desired_toNat] at h
    change _ = 0 at h
    omega
  · have h := congrArg BitVec.toNat h
    rw [desired_toNat, desired_toNat] at h
    omega
  · rw [← BitVec.toNat_inj, lockThreadId_of_tag htag]
    omega
  · rw [← BitVec.toNat_inj, lockThreadId_of_tag htag] at h
    omega
  · rw [← BitVec.toNat_inj, lockThreadId_of_untagged htag] at h
    omega

theorem idOf_toNat {k : ℕ} (hk : k ≤ 65535) : (idOf k).toNat = k + 1 := by
  rw [idOf, BitVec.toNat_ofNat]
  omega

theorem Inv.tagsIdentify {s : ThreadManager} (hinv : Inv s) (hfew : s.issued.length ≤ 65535) :
    s.TagsIdentify := by
  intro t u x y hne ht hu
  obtain ⟨k, hk, rfl⟩ := (hinv.ids t x).mp ht
  obtain ⟨l, hl, rfl⟩ := (hinv.ids u y).mp hu
  obtain ⟨hkbound, rfl⟩ := List.getElem?_eq_some_iff.mp hk
  obtain ⟨hlbound, rfl⟩ := List.getElem?_eq_some_iff.mp hl
  have hkl : k ≠ l := by
    rintro rfl
    exact hne rfl
  apply tellApart_of_narrow
  all_goals
    simp only [idOf_toNat (show k ≤ 65535 by omega), idOf_toNat (show l ≤ 65535 by omega)]
    omega

/-- The thread with the id 65536 stores the tag of nobody. -/
theorem Inv.not_tagsIdentify {s : ThreadManager} (hinv : Inv s) (hmany : 65535 < s.issued.length) :
    ¬ s.TagsIdentify := by
  intro htags
  have hid (k : ℕ) (hk : k < s.issued.length) : s.lThreadId s.issued[k] = some (idOf k) :=
    (hinv.ids _ _).mpr ⟨k, List.getElem?_eq_getElem hk, rfl⟩
  have hne : s.issued[65535] ≠ s.issued[0] := by
    intro h
    have := (hinv.nodup.getElem_inj_iff).mp h
    omega
  exact (htags _ _ _ _ hne (hid 65535 hmany) (hid 0 (by omega))).nonzero (by decide)

theorem Inv.exists_idOf {s : ThreadManager} (hinv : Inv s) (hfew : s.issued.length ≤ 65535)
    (t : {t // t ∈ s.issued}) :
    ∃ k ≤ 65534, s.issued[k]? = some t.val ∧ (s.lThreadId t).getD 0 = idOf k := by
  obtain ⟨k, hk⟩ := List.mem_iff_getElem?.mp t.property
  obtain ⟨hbound, _⟩ := List.getElem?_eq_some_iff.mp hk
  refine ⟨k, by omega, hk, ?_⟩
  rw [(hinv.ids t (idOf k)).mpr ⟨k, hk, rfl⟩]
  rfl

/-- Until then the threads with an id are fit to share a lock. -/
def issuedIds {s : ThreadManager} (hinv : Inv s) (hfew : s.issued.length ≤ 65535) :
    ThreadIds {t // t ∈ s.issued} where
  lThreadId t := (s.lThreadId t).getD 0
  positive t := by
    obtain ⟨k, hk, _, hid⟩ := hinv.exists_idOf hfew t
    rw [hid, idOf_toNat (by omega)]
    omega
  narrow t := by
    obtain ⟨k, hk, _, hid⟩ := hinv.exists_idOf hfew t
    rw [hid, idOf_toNat (by omega)]
    omega
  injective t u heq := by
    obtain ⟨k, hk, ht, hid⟩ := hinv.exists_idOf hfew t
    obtain ⟨l, hl, hu, hid'⟩ := hinv.exists_idOf hfew u
    have hkl : k = l := by
      have h := congrArg BitVec.toNat (hid.symm.trans (heq.trans hid'))
      rw [idOf_toNat (by omega), idOf_toNat (by omega)] at h
      omega
    subst hkl
    exact Subtype.ext (Option.some.inj (ht.symm.trans hu))

/-- In every state that the process reaches, writer tags identify the threads
with an id exactly as long as `InitTLS` has been called at most 65535 times. -/
theorem tagsIdentify_iff {as : List Act} {s : ThreadManager}
    (hrun : machine.Run Base.Machine.Any as s) : s.TagsIdentify ↔ s.issued.length ≤ 65535 := by
  have hinv := inv_run hrun
  constructor
  · intro htags
    by_contra hmany
    exact hinv.not_tagsIdentify (Nat.lt_of_not_le hmany) htags
  · exact hinv.tagsIdentify

/-- The main thread and one that it launched. -/
theorem tagsIdentify_two :
    ∃ s, machine.exec machine.start [.initTLS 0, .launch 0, .initTLS 1] = some s ∧
      s.issued = [0, 1] ∧ s.TagsIdentify := by
  have hexec : machine.exec machine.start [.initTLS 0, .launch 0, .initTLS 1] =
      some ⟨3, [.running 1, .running 2], [0, 1]⟩ := by
    decide
  exact ⟨_, hexec, rfl, (tagsIdentify_iff (Base.Machine.run_of_exec hexec)).mpr (by decide)⟩

/-- The main thread after it has launched `n` threads that have an id each. -/
def launched (n : ℕ) : ThreadManager where
  sThreadId := idOf (n + 1)
  threads := (List.range (n + 1)).map fun k => .running (idOf k)
  issued := List.range (n + 1)

theorem launched_succ (n : ℕ) :
    machine.exec (launched n) [.launch 0, .initTLS (n + 1)] = some (launched (n + 1)) := by
  have hlaunch : machine.step (launched n) (.launch 0) =
      some { launched n with threads := (launched n).threads ++ [.starting] } := by
    simp [machine, step, launched]
  have hthread : ((launched n).threads ++ [.starting])[n + 1]? = some .starting := by
    simp [launched]
  have hcounter : idOf (n + 1) + 1 = idOf (n + 1 + 1) := by
    rw [idOf, idOf, ← Nat.add_assoc 1 (n + 1) 1, BitVec.ofNat_add _ 1]
    rfl
  rw [Base.Machine.exec, hlaunch, Option.bind_some, Base.Machine.exec_singleton]
  simp only [machine, step, hthread]
  simp [initTLS, launched, ← hcounter, List.range_succ]

theorem launched_run (n : ℕ) : ∃ as, machine.Run Base.Machine.Any as (launched n) := by
  induction n with
  | zero => exact ⟨[.initTLS 0], Base.Machine.run_of_exec (by decide)⟩
  | succ n ih =>
    obtain ⟨as, hrun⟩ := ih
    exact ⟨_, hrun.append_exec (launched_succ n)⟩

/-- After 65535 launches the youngest thread has the id 65536, and its writer
tag is the empty flag. -/
theorem tag_overflow : ∃ as s, machine.Run Base.Machine.Any as s ∧
    s.lThreadId 65535 = some 65536 ∧ desired 65536 = emptyFlag ∧ ¬ s.TagsIdentify := by
  obtain ⟨as, hrun⟩ := launched_run 65535
  have hissued : 65535 < (launched 65535).issued.length := by
    rw [launched, List.length_range]
    omega
  have hid : (launched 65535).lThreadId 65535 = some 65536 := by
    simp [lThreadId, launched, Phase.lThreadId, idOf]
  exact ⟨as, _, hrun, hid, by decide, (inv_run hrun).not_tagsIdentify hissued⟩

end ThreadManager

end CppServer
