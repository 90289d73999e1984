import CppServer.Base.Progress
import CppServer.LockFreeStack.Refinement

namespace CppServer.LockFreeStack

open Function Base

/-- The halves of the header that a thread has copied. -/
def Pc.copied : Pc → Option Alignment × Option Region
  | .idle | .done _ => (none, none)
  | .pushRead _ alignment region | .popRead alignment region => (alignment, region)
  | .pushLink _ expected | .pushExchange _ expected | .popNext expected | .popExchange expected _ =>
    (some expected.alignment, some expected.region)

/-- What a copy costs that differs from the header: its exchange fails. -/
def stale (header : SListHeader) (copied : Option Alignment × Option Region) : ℕ :=
  if copied.1.getD header.alignment = header.alignment ∧ copied.2.getD header.region = header.region
  then 0 else 4

/-- The steps to the return if the exchange succeeds. -/
def Pc.distance : Pc → ℕ
  | .idle => 0
  | .pushRead _ none none | .popRead none none => 5
  | .pushRead _ _ _ | .popRead _ _ => 4
  | .pushLink _ _ | .popNext _ => 3
  | .pushExchange _ _ | .popExchange _ _ => 2
  | .done _ => 1

/-- The exchanges that a call still has to make. -/
def Pc.pending : Pc → ℕ
  | .idle | .done _ => 0
  | .pushRead _ _ _ | .pushLink _ _ | .pushExchange _ _ | .popRead _ _ | .popNext _
  | .popExchange _ _ => 1

/-- The steps to the return if nobody else exchanges the header. -/
def Pc.remaining (header : SListHeader) (pc : Pc) : ℕ := pc.distance + stale header pc.copied

theorem stale_le (header : SListHeader) (copied : Option Alignment × Option Region) :
    stale header copied ≤ 4 := by
  unfold stale
  split <;> omega

theorem stale_header (header : SListHeader) :
    stale header (some header.alignment, some header.region) = 0 := if_pos ⟨rfl, rfl⟩

theorem stale_of_ne {header expected : SListHeader} (hne : header ≠ expected) :
    stale header (some expected.alignment, some expected.region) = 4 := by
  refine if_neg fun ⟨halignment, hregion⟩ => hne ?_
  cases header
  cases expected
  cases halignment
  cases hregion
  rfl

/-- Somebody else's exchange costs a thread one more attempt at most. -/
theorem Pc.remaining_le (pc : Pc) (header header' : SListHeader) :
    pc.remaining header' ≤ pc.remaining header + 4 := by
  have hle := stale_le header' pc.copied
  simp only [Pc.remaining]
  omega

/-- A step brings its thread nearer to the return. It exchanges the header at most once in a
call. -/
theorem remaining_step {half : Half} {m m' : Memory} {pc pc' : Pc}
    (hstep : step half m pc = some (m', pc')) :
    pc'.remaining m'.header + 1 ≤ pc.remaining m.header ∧
      (m'.header = m.header ∧ pc'.pending ≤ pc.pending ∨ pc'.pending + 1 = pc.pending) := by
  cases pc with
  | idle => cases hstep
  | done result =>
    cases hstep
    simp [Pc.remaining, Pc.distance, Pc.copied, Pc.pending, stale]
  | pushLink entry expected | popNext expected =>
    cases hstep
    refine ⟨?_, .inl ⟨rfl, le_rfl⟩⟩
    simp only [Pc.remaining, Pc.distance, Pc.copied]
    omega
  | pushExchange entry expected | popExchange expected next =>
    simp only [step] at hstep
    split at hstep
    case isTrue hequal =>
      cases hstep
      simp [Pc.remaining, Pc.distance, Pc.copied, Pc.pending, stale]
    case isFalse hne =>
      -- the copy was stale, which pays for another attempt
      cases hstep
      simp only [Pc.remaining, Pc.copied, stale_of_ne hne]
      simp [Pc.distance, Pc.pending, stale]
  | pushRead entry alignment region =>
    cases half <;> cases alignment <;> cases region <;> cases hstep <;>
      simp [Pc.remaining, Pc.distance, Pc.copied, Pc.pending, stale]
  | popRead alignment region =>
    -- an empty stack ends the call, whatever the copy
    cases half <;> cases alignment <;> cases region <;> simp only [step, readHalf] at hstep <;>
      try split at hstep
    all_goals cases hstep
    all_goals simp [Pc.remaining, Pc.distance, Pc.copied, Pc.pending, stale]
    all_goals omega

section Labels

variable {T : Type}

/-- The steps inside calls that a label stands for. -/
def Act.steps : Act T → ℕ
  | .run _ _ => 1
  | .call _ _ | .scribble _ _ => 0

/-- The calls that begin with a label. -/
def Act.calls : Act T → ℕ
  | .call _ _ => 1
  | .run _ _ | .scribble _ _ => 0

end Labels

variable {T : Type} [Fintype T] [DecidableEq T]

/-- What a thread has left to do, and what its exchange will cost the others. -/
def charge (T : Type) [Fintype T] (header : SListHeader) (pc : Pc) : ℕ :=
  pc.remaining header + 4 * (Fintype.card T - 1) * pc.pending

def Threads.potential (s : Threads T) : ℕ := ∑ t, charge T s.memory.header (s.pc t)

omit [DecidableEq T] in
theorem charge_le (header : SListHeader) (pc : Pc) :
    charge T header pc ≤ 9 + 4 * (Fintype.card T - 1) := by
  have hstale := stale_le header pc.copied
  have hdistance : pc.distance ≤ 5 := by
    unfold Pc.distance
    split <;> omega
  have hpending : pc.pending ≤ 1 := by cases pc <;> simp [Pc.pending]
  have hmul := Nat.mul_le_mul_left (4 * (Fintype.card T - 1)) hpending
  simp only [charge, Pc.remaining]
  omega

omit [DecidableEq T] in
theorem charge_entryPoint (header : SListHeader) (op : Op) :
    charge T header op.entryPoint = 5 + 4 * (Fintype.card T - 1) := by
  cases op <;> simp [charge, Pc.remaining, Pc.distance, Pc.copied, Pc.pending, stale, Op.entryPoint]

variable {s s' : Threads T}

/-- Every step is paid for by the calls that have begun. -/
theorem potential_step {act : Act T} (hstep : s.step act = some s') :
    act.steps + s'.potential ≤ s.potential + (4 * Fintype.card T + 1) * act.calls := by
  cases act with
  | scribble entry value =>
    simp only [Threads.step] at hstep
    split at hstep <;> cases hstep
    simp [Act.steps, Act.calls, Threads.potential]
  | call t op =>
    simp only [Threads.step] at hstep
    split at hstep
    case isFalse => cases hstep
    case isTrue hcall =>
      cases hstep
      have hsum := Counting.total_update (charge T s.memory.header) s.pc t op.entryPoint
      have hcard : 0 < Fintype.card T := Fintype.card_pos_iff.mpr ⟨t⟩
      rw [charge_entryPoint] at hsum
      simp only [Act.steps, Act.calls, Threads.potential]
      omega
  | run t half =>
    obtain ⟨memory, pc, hcode, rfl⟩ := Threads.step_run hstep
    obtain ⟨hremaining, ⟨hheader, hpending⟩ | hexchange⟩ := remaining_step hcode
    · have hsum := Counting.total_update (charge T s.memory.header) s.pc t pc
      have hown : charge T s.memory.header pc + 1 ≤ charge T s.memory.header (s.pc t) := by
        have hmul := Nat.mul_le_mul_left (4 * (Fintype.card T - 1)) hpending
        rw [hheader] at hremaining
        simp only [charge]
        omega
      simp only [Act.steps, Act.calls, Threads.potential, hheader]
      omega
    · have hothers (u : T) (hu : u ≠ t) : charge T memory.header (update s.pc t pc u) ≤
          charge T s.memory.header (s.pc u) + 4 := by
        have hle := (s.pc u).remaining_le s.memory.header memory.header
        rw [update_of_ne hu]
        simp only [charge]
        omega
      have hsum := Counting.total_le_of_others hothers
      have hown : charge T memory.header pc + 1 + 4 * (Fintype.card T - 1) ≤
          charge T s.memory.header (s.pc t) := by
        simp only [charge, ← hexchange, Nat.mul_add]
        omega
      rw [update_self] at hsum
      simp only [Act.steps, Act.calls, Threads.potential]
      omega

/-- Lock freedom, with its bound. Whatever the schedule, the steps that the threads take inside
their calls are at most `4 * n + 1` for each call that has begun, where `n` is the number of
threads; and from any state on, the threads take a bounded number of steps in all before another
call begins. -/
theorem steps_le_calls {memory : Memory} {held : Addr → Bool} {before after : List (Act T)}
    (hexec : (Threads.machine T memory held).exec (Threads.machine T memory held).start before =
      some s)
    (hafter : (Threads.machine T memory held).exec s after = some s') :
    (before.map Act.steps).sum ≤ (4 * Fintype.card T + 1) * (before.map Act.calls).sum ∧
      (after.map Act.steps).sum ≤
        Fintype.card T * (4 * Fintype.card T + 5) +
          (4 * Fintype.card T + 1) * (after.map Act.calls).sum := by
  have hpaid {r r' : Threads T} {acts : List (Act T)}
      (hacts : (Threads.machine T memory held).exec r acts = some r') :
      (acts.map Act.steps).sum ≤
        r.potential + (4 * Fintype.card T + 1) * (acts.map Act.calls).sum := by
    have hpay : (Threads.machine T memory held).total (fun _ act _ => act.steps) r acts + r'.potential ≤
        r.potential + (Threads.machine T memory held).total
          (fun _ act _ => (4 * Fintype.card T + 1) * act.calls) r acts :=
      Machine.total_le_of_potential (fun _ _ _ hstep => potential_step hstep) hacts
    rw [Machine.total_eq_sum hacts, Machine.total_eq_sum hacts, List.sum_map_mul_left] at hpay
    omega
  constructor
  · have hzero : (Threads.machine T memory held).start.potential = 0 := by
      refine Finset.sum_eq_zero fun t _ => ?_
      simp [Threads.machine, charge, Pc.remaining, Pc.distance, Pc.copied, Pc.pending, stale]
    have h := hpaid hexec
    omega
  · have hbound : s.potential ≤ Fintype.card T * (4 * Fintype.card T + 5) := by
      calc
        s.potential ≤ ∑ _ : T, (9 + 4 * (Fintype.card T - 1)) :=
          Finset.sum_le_sum fun t _ => charge_le s.memory.header (s.pc t)
        _ = Fintype.card T * (9 + 4 * (Fintype.card T - 1)) := by
          rw [Finset.sum_const, smul_eq_mul, Finset.card_univ]
        _ ≤ Fintype.card T * (4 * Fintype.card T + 5) := by
          rcases Nat.eq_zero_or_pos (Fintype.card T) with hzero | hpos
          · simp [hzero]
          · exact Nat.mul_le_mul_left _ (by omega)
    have h := hpaid hafter
    omega

theorem steps_le_calls_race :
    ∃ s, (Threads.machine (Fin 2) ⟨{}, id⟩ fun _ => true).exec
        (Threads.machine (Fin 2) ⟨{}, id⟩ fun _ => true).start race = some s ∧
      (race.map Act.steps).sum = 19 ∧ (race.map Act.steps).sum ≤ 9 * 3 := by
  have hsome : ((Threads.machine (Fin 2) ⟨{}, id⟩ fun _ => true).exec
      (Threads.machine (Fin 2) ⟨{}, id⟩ fun _ => true).start race).isSome := by
    decide
  obtain ⟨s, hexec⟩ := Option.isSome_iff_exists.mp hsome
  have hnothing : (Threads.machine (Fin 2) ⟨{}, id⟩ fun _ => true).exec s [] = some s := rfl
  exact ⟨s, hexec, by decide, (steps_le_calls hexec hnothing).1⟩

end CppServer.LockFreeStack
