import CppServer.DeadLockProfiler.Nesting

namespace CppServer.DeadLockProfiler

open Base Base.Graph Relation

variable {Name : Type}

/-- The names pushed, in order. -/
def pushes (calls : List (Call Name)) : List Name := calls.filterMap Call.pushed

theorem mem_pushes {calls : List (Call Name)} {name : Name} :
    name ∈ pushes calls ↔ .push name ∈ calls := by
  simp [pushes, Call.pushed_eq_some]

theorem pushes_push (calls : List (Call Name)) (name : Name) :
    pushes (calls ++ [.push name]) = pushes calls ++ [name] := by
  simp [pushes, Call.pushed]

theorem pushes_pop (calls : List (Call Name)) (name : Name) :
    pushes (calls ++ [.pop name]) = pushes calls := by
  simp [pushes, Call.pushed]

namespace Profiler

variable [DecidableEq Name] {calls : List (Call Name)} {s s' : Profiler Name} {name : Name}

/-- The tables are inverse bijections between the names pushed so far and the ids below
their number, and no other id is in use. -/
structure Bijective (calls : List (Call Name)) (s : Profiler Name) : Prop where
  inverse : ∀ name lockId,
    s.nameToId.lookup name = some lockId ↔ s.idToName.lookup lockId = some name
  names : ∀ name, name ∈ s.nameToId ↔ .push name ∈ calls
  ids : ∀ lockId, lockId ∈ s.idToName ↔ lockId < (pushes calls).dedup.length
  stack : ∀ lockId ∈ s.lockStack, lockId < (pushes calls).dedup.length
  history : ∀ a b, Edge s.lockHistory a b →
    a < (pushes calls).dedup.length ∧ b < (pushes calls).dedup.length

/-- Wrong pops crash, and the tables are bijections in every state reached. -/
structure Detects (calls : List (Call Name)) : Prop where
  pops : ∀ before name after s, calls = before ++ .pop name :: after → run before = .ok s →
    (stackOf before).head? ≠ some name → ∃ cause report, s.popLock name = .error (.crash cause report)
  tables : ∀ before s, before <+: calls → run before = .ok s → Bijective before s

/-- No pop with a name that was never pushed is made while the lock on top of the stack is
the one that was the first ever pushed. -/
def NeverMistaken (calls : List (Call Name)) : Prop :=
  ∀ before name after s, calls = before ++ .pop name :: after → run before = .ok s →
    .push name ∉ before → ∀ top, (stackOf before).head? = some top → (pushes before).head? ≠ some top

theorem lockCount_eq (hrecords : Records calls s) : s.lockCount = (pushes calls).dedup.length := by
  have hperm : s.nameToId.keys.Perm (pushes calls).dedup := by
    rw [List.perm_ext_iff_of_nodup s.nameToId.keys_nodup (List.nodup_dedup _)]
    intro name
    rw [List.mem_dedup, mem_pushes, ← hrecords.known, AList.mem_keys]
  exact hperm.length_eq

theorem Records.bijective (hrecords : Records calls s) : Bijective calls s := by
  have hcount := lockCount_eq hrecords
  refine ⟨hrecords.inverse, hrecords.known, fun lockId => ?_, fun lockId hmem => ?_, fun a b hedge => ?_⟩
  · rw [← hcount, ← hrecords.named, ← AList.lookup_isSome, Option.isSome_iff_exists]
  · rw [← hcount]
    exact hrecords.stack lockId hmem
  · rw [← hcount]
    exact ⟨(hrecords.edges a b hedge).1, (hrecords.edges a b hedge).2.1⟩

/-- The id 0 stays with the name pushed first. -/
theorem lookup_zero_push (hinv : Inv s) (hpush : s.pushLock name = .ok s') :
    s'.idToName.lookup 0 = (s.idToName.lookup 0).or (some name) := by
  obtain ⟨lockId, t, hreg⟩ := registers hinv.toTables name
  have hs' : s' = t.pushed lockId := by
    rcases pushLock_cases hinv hreg with ⟨hok, -⟩ | ⟨⟨report, hcrash⟩, -⟩
    · rw [hok] at hpush
      exact (Except.ok.inj hpush).symm
    · rw [hcrash] at hpush
      cases hpush
  have hids : s'.idToName = t.idToName := by
    rw [hs']
    exact (noted_fields t lockId).2.1
  rw [hids]
  cases hzero : s.idToName.lookup 0 with
  | some first =>
    have hlt : 0 < s.lockCount := (hinv.named 0).mp ⟨first, hzero⟩
    rw [hreg.keep 0 hlt, hzero, Option.some_or]
  | none =>
    have hempty : s.lockCount = 0 := by
      by_contra hpos
      obtain ⟨first, hfirst⟩ := (hinv.named 0).mpr (Nat.pos_of_ne_zero hpos)
      rw [hzero] at hfirst
      cases hfirst
    have hnew : s.nameToId.lookup name = none := by
      cases hlookup : s.nameToId.lookup name with
      | none => rfl
      | some a =>
        have hlt := (hinv.named a).mp ⟨name, (hinv.inverse name a).mp hlookup⟩
        omega
    have heq := hreg.eq
    simp only [register, hnew, hempty] at heq
    cases heq
    rw [Option.none_or]
    exact hreg.named

/-- The profiler after calls that have returned, and which name has the id 0. -/
structure Numbered (calls : List (Call Name)) (s : Profiler Name) : Prop extends Records calls s where
  zero : s.idToName.lookup 0 = (pushes calls).head?

theorem Numbered.push (hnumbered : Numbered calls s) (hpush : s.pushLock name = .ok s') :
    Numbered (calls ++ [.push name]) s' := by
  rcases hnumbered.toRecords.push name with ⟨t, hok, hrecords⟩ | ⟨⟨report, hcrash⟩, -⟩
  · rw [hok] at hpush
    cases hpush
    refine ⟨hrecords, ?_⟩
    rw [lookup_zero_push hnumbered.toInv hok, hnumbered.zero, pushes_push, List.head?_append]
    rfl
  · rw [hcrash] at hpush
    cases hpush

theorem idToName_popLock (hpop : s.popLock name = .ok s') : s'.idToName = s.idToName := by
  unfold popLock at hpop
  repeat' split at hpop
  all_goals
    cases hpop
    try rfl

theorem Numbered.pop (hnumbered : Numbered calls s) (hknown : .push name ∈ calls)
    (hpop : s.popLock name = .ok s') : Numbered (calls ++ [.pop name]) s' := by
  rcases hnumbered.toRecords.pop hknown with ⟨t, -, hok, hrecords⟩ | ⟨-, cause, hcrash⟩
  · rw [hok] at hpop
    cases hpop
    exact ⟨hrecords, by rw [idToName_popLock hok, hnumbered.zero, pushes_pop]⟩
  · rw [hcrash] at hpop
    cases hpop

/-- A pop of a name that was never pushed gets the id 0: it passes if the name pushed
first is on top, and crashes otherwise. -/
theorem Numbered.pop_unknown (hnumbered : Numbered calls s) (hunknown : .push name ∉ calls) :
    ((∃ s', s.popLock name = .ok s') ∧
        ∃ top, (stackOf calls).head? = some top ∧ (pushes calls).head? = some top) ∨
      (∃ cause, s.popLock name = .error (.crash cause [])) ∧
        ∀ top, (stackOf calls).head? = some top → (pushes calls).head? ≠ some top := by
  have hlookup : s.nameToId.lookup name = none := by
    rw [AList.lookup_eq_none, hnumbered.known]
    exact hunknown
  rw [← hnumbered.held, ← hnumbered.zero]
  unfold popLock
  cases hstack : s.lockStack with
  | nil => exact .inr ⟨⟨_, rfl⟩, by simp [held, names, hstack]⟩
  | cons top rest =>
    obtain ⟨x, hx, hheld⟩ := hnumbered.held_cons hstack
    simp only [hlookup, hheld, List.head?_cons, Option.some.injEq]
    by_cases htop : 0 = top
    · subst htop
      exact .inl ⟨⟨_, if_neg (not_not.mpr rfl)⟩, x, rfl, hx⟩
    · refine .inr ⟨⟨.invalidUnlock, if_pos htop⟩, ?_⟩
      rintro y rfl hzero
      exact htop (hnumbered.id_unique hzero hx)

theorem numbered_nil : Numbered [] ({} : Profiler Name) := ⟨records_nil, rfl⟩

theorem NeverMistaken.of_append {rest : List (Call Name)} (hnever : NeverMistaken (calls ++ rest)) :
    NeverMistaken calls := by
  rintro before name after s rfl
  exact hnever before name (after ++ rest) s (by simp)

theorem numbered_run (hnever : NeverMistaken calls) (hrun : run calls = .ok s) :
    Numbered calls s := by
  induction calls using List.reverseRecOn generalizing s with
  | nil =>
    cases hrun
    exact numbered_nil
  | append_singleton calls c ih =>
    rw [run_snoc, bind_eq_ok] at hrun
    obtain ⟨t, hbefore, hcall⟩ := hrun
    have hnumbered := ih hnever.of_append hbefore
    cases c with
    | push name => exact hnumbered.push hcall
    | pop name =>
      by_cases hknown : .push name ∈ calls
      · exact hnumbered.pop hknown hcall
      · rcases hnumbered.pop_unknown hknown with ⟨-, top, htop, hfirst⟩ | ⟨⟨cause, hcrash⟩, -⟩
        · exact absurd hfirst (hnever calls name [] t rfl hbefore hknown top htop)
        · cases hcrash.symm.trans hcall

omit [DecidableEq Name] in
theorem not_head_of_unknown (hunknown : .push name ∉ calls) : (stackOf calls).head? ≠ some name :=
  fun htop => hunknown (push_mem_of_mem_stackOf (List.mem_of_mem_head? (Option.mem_def.mpr htop)))

/-- The profiler detects wrong pops, and keeps its tables bijections, exactly in the
sequences of calls without a pop of a name that was never pushed while the lock that was
the first ever pushed is on top. -/
theorem detects_iff (calls : List (Call Name)) : Detects calls ↔ NeverMistaken calls := by
  constructor
  · intro hdetects
    induction calls using List.reverseRecOn with
    | nil =>
      intro before name after s hsplit
      simp at hsplit
    | append_singleton calls c ih =>
      have hdetects' : Detects calls := by
        refine ⟨?_, fun before s hbefore => ?_⟩
        · rintro before name after s rfl
          exact hdetects.pops before name (after ++ [c]) s (by simp)
        · exact hdetects.tables before s (hbefore.trans (List.prefix_append ..))
      intro before name after s hsplit hrun hunknown top htop
      rcases split_snoc.mp hsplit with ⟨rfl, rfl, rfl⟩ | ⟨rest, -, hcalls⟩
      · rcases (numbered_run (ih hdetects') hrun).pop_unknown hunknown with ⟨⟨s', hok⟩, -⟩ | ⟨-, hnot⟩
        · obtain ⟨cause, report, hcrash⟩ :=
            hdetects.pops calls name [] s rfl hrun (not_head_of_unknown hunknown)
          cases hcrash.symm.trans hok
        · exact hnot top htop
      · exact ih hdetects' before name rest s hcalls hrun hunknown top htop
  · intro hnever
    refine ⟨?_, ?_⟩
    · rintro before name after s rfl hrun hwrong
      have hnumbered := numbered_run hnever.of_append hrun
      by_cases hknown : .push name ∈ before
      · rcases hnumbered.toRecords.pop hknown with ⟨-, htop, -⟩ | ⟨-, cause, hcrash⟩
        · exact absurd htop hwrong
        · exact ⟨cause, [], hcrash⟩
      · rcases hnumbered.pop_unknown hknown with ⟨-, top, htop, hfirst⟩ | ⟨⟨cause, hcrash⟩, -⟩
        · exact absurd hfirst (hnever before name after s rfl hrun hknown top htop)
        · exact ⟨cause, [], hcrash⟩
    · rintro before s ⟨after, rfl⟩ hrun
      exact (numbered_run hnever.of_append hrun).toRecords.bijective

/-- A wrong pop of an unknown name passes, and the next new name gets the id 2 while no
name has the id 1. -/
theorem popLock_mistaken :
    (∃ s s', run [.push 'a'] = .ok s ∧ s.popLock 'z' = .ok s') ∧
      (∃ s, run [.push 'a', .pop 'z', .push 'b'] = .ok s ∧ s.nameToId.lookup 'b' = some 2 ∧
        s.idToName.lookup 1 = none) ∧
      ¬ Detects [.push 'a', .pop 'z', .push 'b'] := by
  refine ⟨⟨_, _, rfl, rfl⟩, ⟨_, rfl, rfl, rfl⟩, fun hdetects => ?_⟩
  obtain ⟨cause, report, hcrash⟩ :=
    hdetects.pops [.push 'a'] 'z' [.push 'b'] _ rfl rfl (by decide)
  cases hcrash

end Profiler

end CppServer.DeadLockProfiler
