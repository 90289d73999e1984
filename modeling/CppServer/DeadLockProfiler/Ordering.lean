import CppServer.DeadLockProfiler.Names

namespace CppServer.DeadLockProfiler

open Base Base.Graph Relation

inductive Call (Name : Type)
  | push (name : Name)
  | pop (name : Name)
deriving DecidableEq

namespace Profiler

variable {Name : Type}

/-- Every popped name was pushed earlier. -/
def PopsKnown (calls : List (Call Name)) : Prop :=
  ∀ before name after, calls = before ++ .pop name :: after → .push name ∈ before

theorem split_snoc {α : Type} {as before after : List α} {a b : α} :
    as ++ [b] = before ++ a :: after ↔
      (after = [] ∧ as = before ∧ b = a) ∨ ∃ rest, after = rest ++ [b] ∧ as = before ++ a :: rest := by
  rcases List.eq_nil_or_concat after with rfl | ⟨rest, last, rfl⟩
  · constructor
    · intro h
      obtain ⟨rfl, hlast⟩ := List.append_inj' h rfl
      cases hlast
      exact .inl ⟨rfl, rfl, rfl⟩
    · rintro (⟨_, rfl, rfl⟩ | ⟨rest, hrest, _⟩)
      · rfl
      · exact absurd hrest.symm (List.concat_ne_nil b rest)
  · rw [List.concat_eq_append, ← List.cons_append, ← List.append_assoc]
    constructor
    · intro h
      obtain ⟨rfl, hlast⟩ := List.append_inj' h rfl
      cases hlast
      exact .inr ⟨rest, rfl, rfl⟩
    · rintro (⟨h, _, _⟩ | ⟨rest', hrest, rfl⟩)
      · exact absurd h (List.concat_ne_nil last rest)
      · obtain ⟨rfl, hlast⟩ := List.append_inj' hrest rfl
        cases hlast
        rfl

theorem popsKnown_snoc {calls : List (Call Name)} {c : Call Name} :
    PopsKnown (calls ++ [c]) ↔ PopsKnown calls ∧ ∀ name, c = .pop name → .push name ∈ calls := by
  constructor
  · intro hpops
    refine ⟨?_, fun name heq => hpops calls name [] (by rw [heq])⟩
    rintro before name after rfl
    exact hpops before name (after ++ [c]) (by simp)
  · rintro ⟨hpops, hlast⟩ before name after hsplit
    rcases split_snoc.mp hsplit with ⟨_, rfl, heq⟩ | ⟨rest, _, hcalls⟩
    · exact hlast name heq
    · exact hpops before name rest hcalls

variable [DecidableEq Name]

def call (s : Profiler Name) : Call Name → Except (Fault (Option Name)) (Profiler Name)
  | .push name => s.pushLock name
  | .pop name => s.popLock name

/-- A sequence of calls on a fresh profiler, up to the first crash. -/
def run (calls : List (Call Name)) : Except (Fault (Option Name)) (Profiler Name) :=
  calls.foldlM call {}

/-- `y` was pushed while `x`, different from `y`, was anywhere on the stack. -/
def HeldBefore (calls : List (Call Name)) (x y : Name) : Prop :=
  ∃ before after s, calls = before ++ .push y :: after ∧ run before = .ok s ∧ x ∈ s.held ∧ x ≠ y

theorem run_snoc (calls : List (Call Name)) (c : Call Name) :
    run (calls ++ [c]) = (run calls) >>= fun s => s.call c := by
  rw [run, List.foldlM_append]
  simp [run]

theorem heldBefore_push {calls : List (Call Name)} {s : Profiler Name} (hrun : run calls = .ok s)
    (x y name : Name) :
    HeldBefore (calls ++ [.push name]) x y ↔
      HeldBefore calls x y ∨ (y = name ∧ x ∈ s.held ∧ x ≠ name) := by
  constructor
  · rintro ⟨before, after, t, hsplit, hbefore, hx, hne⟩
    rcases split_snoc.mp hsplit with ⟨rfl, rfl, heq⟩ | ⟨rest, rfl, hcalls⟩
    · cases heq
      rw [hrun] at hbefore
      cases hbefore
      exact .inr ⟨rfl, hx, hne⟩
    · exact .inl ⟨before, rest, t, hcalls, hbefore, hx, hne⟩
  · rintro (⟨before, after, t, rfl, hbefore, hx, hne⟩ | ⟨rfl, hx, hne⟩)
    · exact ⟨before, after ++ [.push name], t, by simp, hbefore, hx, hne⟩
    · exact ⟨calls, [], s, rfl, hrun, hx, hne⟩

theorem heldBefore_pop (calls : List (Call Name)) (x y name : Name) :
    HeldBefore (calls ++ [.pop name]) x y ↔ HeldBefore calls x y := by
  constructor
  · rintro ⟨before, after, t, hsplit, hbefore, hx, hne⟩
    rcases split_snoc.mp hsplit with ⟨_, _, heq⟩ | ⟨rest, rfl, hcalls⟩
    · cases heq
    · exact ⟨before, rest, t, hcalls, hbefore, hx, hne⟩
  · rintro ⟨before, after, t, rfl, hbefore, hx, hne⟩
    exact ⟨before, after ++ [.pop name], t, by simp, hbefore, hx, hne⟩

/-- What a sequence of calls that has returned leaves behind. The history lies
between the edges that were really seen and their transitive closure. -/
structure Traced (calls : List (Call Name)) (s : Profiler Name) : Prop extends Inv s where
  registered : ∀ name, .push name ∈ calls → name ∈ s.nameToId
  lower : ∀ x y, NameEdge s x y → HeldBefore calls x y
  upper : ∀ x y, HeldBefore calls x y → TransGen (NameEdge s) x y

variable {calls : List (Call Name)} {s s' : Profiler Name} {name : Name}

theorem Traced.acyclic_heldBefore (htraced : Traced calls s) : Acyclic (HeldBefore calls) :=
  (htraced.acyclic_nameEdge htraced.acyclic).of_le_transGen htraced.upper

theorem traced_nil : Traced [] ({} : Profiler Name) := by
  refine ⟨inv_fresh, fun name h => absurd h List.not_mem_nil, ?_, ?_⟩
  · rintro x y ⟨a, b, hx, _⟩
    cases hx
  · rintro x y ⟨before, after, t, h, _⟩
    exact absurd h.symm (List.append_ne_nil_of_right_ne_nil _ (List.cons_ne_nil _ _))

/-- The edge that a push notes was seen. -/
theorem Traced.push_lower (htraced : Traced calls s) (hrun : run calls = .ok s)
    (hedges : NotesEdge s name s') {x y : Name} (hedge : NameEdge s' x y) :
    HeldBefore (calls ++ [.push name]) x y := by
  rw [heldBefore_push hrun]
  rcases (hedges x y).mp hedge with hedge | ⟨htop, rfl, hne⟩
  · exact .inl (htraced.lower x y hedge)
  · exact .inr ⟨rfl, List.mem_of_mem_head? (Option.mem_def.mpr htop), hne⟩

/-- Every lock on the stack reaches the pushed one: along the stack to its top,
and from there over the noted edge. -/
theorem Traced.push_upper (htraced : Traced calls s) (hrun : run calls = .ok s)
    (hedges : NotesEdge s name s') {x y : Name} (hheld : HeldBefore (calls ++ [.push name]) x y) :
    TransGen (NameEdge s') x y := by
  have hkeep (u v : Name) (h : NameEdge s u v) : NameEdge s' u v := (hedges u v).mpr (.inl h)
  rcases (heldBefore_push hrun x y name).mp hheld with hheld | ⟨rfl, hheld, hne⟩
  · exact TransGen.mono hkeep x y (htraced.upper x y hheld)
  · have hadjacent := htraced.adjacent_held
    cases htop : s.held with
    | nil =>
      rw [htop] at hheld
      exact absurd hheld List.not_mem_nil
    | cons top rest =>
      rw [htop] at hheld hadjacent
      have hreach : ReflTransGen (NameEdge s') x top :=
        ReflTransGen.mono hkeep x top (reflTransGen_of_isChain hadjacent hheld)
      by_cases heq : top = y
      · subst heq
        exact (reflTransGen_iff_eq_or_transGen.mp hreach).resolve_left (Ne.symm hne)
      · exact TransGen.tail' hreach ((hedges top y).mpr (.inr ⟨by rw [htop]; rfl, rfl, heq⟩))

theorem traced_push (htraced : Traced calls s) (hrun : run calls = .ok s)
    (hpush : s.pushLock name = .ok s') : Traced (calls ++ [.push name]) s' := by
  obtain ⟨t, _, hknown, hedges, ⟨hok, hinv⟩ | ⟨⟨_, hcrash⟩, _⟩⟩ := pushLock_spec htraced.toInv name
  · rw [hok] at hpush
    cases hpush
    refine ⟨hinv, ?_, fun x y => htraced.push_lower hrun hedges,
      fun x y => htraced.push_upper hrun hedges⟩
    intro x hx
    rw [hknown]
    rcases List.mem_append.mp hx with hx | hx
    · exact .inr (htraced.registered x hx)
    · cases List.mem_singleton.mp hx
      exact .inl rfl
  · rw [hcrash] at hpush
    cases hpush

theorem traced_pop (htraced : Traced calls s) (hknown : .push name ∈ calls)
    (hpop : s.popLock name = .ok s') : Traced (calls ++ [.pop name]) s' := by
  rcases popLock_spec htraced.toInv (htraced.registered name hknown) with
    ⟨_, t, _, hok, hinv, _, hnames, hedges⟩ | ⟨_, _, hcrash⟩
  · rw [hok] at hpop
    cases hpop
    refine ⟨hinv, ?_, ?_, ?_⟩
    · intro x hx
      rw [hnames]
      rcases List.mem_append.mp hx with hx | hx
      · exact htraced.registered x hx
      · cases List.mem_singleton.mp hx
    · intro x y hedge
      exact (heldBefore_pop calls x y name).mpr (htraced.lower x y ((hedges x y).mp hedge))
    · intro x y hheld
      refine TransGen.mono (fun u v => (hedges u v).mpr) x y (htraced.upper x y ?_)
      exact (heldBefore_pop calls x y name).mp hheld
  · rw [hcrash] at hpop
    cases hpop

theorem traced_run (hpops : PopsKnown calls) (hrun : run calls = .ok s) : Traced calls s := by
  induction calls using List.reverseRecOn generalizing s with
  | nil =>
    cases hrun
    exact traced_nil
  | append_singleton calls c ih =>
    rw [run_snoc, bind_eq_ok] at hrun
    obtain ⟨t, hbefore, hcall⟩ := hrun
    obtain ⟨hpops, hlast⟩ := popsKnown_snoc.mp hpops
    have htraced := ih hpops hbefore
    cases c with
    | push name => exact traced_push htraced hbefore hcall
    | pop name => exact traced_pop htraced (hlast name rfl) hcall

/-- The profiler misses no ordering. After calls that have returned, held-before
has no cycle and lies within the transitive closure of the history; and the next
push crashes exactly if held-before, with this push, has a cycle. -/
theorem pushLock_crashes_iff (hpops : PopsKnown calls) (hrun : run calls = .ok s) :
    Acyclic (HeldBefore calls) ∧ (∀ x y, HeldBefore calls x y → TransGen (NameEdge s) x y) ∧
      ∀ name,
        ((∃ s', s.pushLock name = .ok s') ∨
          ∃ report, s.pushLock name = .error (.crash .deadlockDetected report)) ∧
        ((∃ report, s.pushLock name = .error (.crash .deadlockDetected report)) ↔
          ∃ x, TransGen (HeldBefore (calls ++ [.push name])) x x) := by
  have htraced := traced_run hpops hrun
  refine ⟨htraced.acyclic_heldBefore, htraced.upper, fun name => ?_⟩
  obtain ⟨t, _, _, hedges, ⟨hok, _⟩ | ⟨⟨report, hcrash⟩, hcyclic⟩⟩ := pushLock_spec htraced.toInv name
  · refine ⟨.inl ⟨t, hok⟩, ?_, ?_⟩
    · rintro ⟨report, hcrash⟩
      rw [hok] at hcrash
      cases hcrash
    · rintro ⟨x, hcycle⟩
      exact absurd hcycle ((traced_push htraced hrun hok).acyclic_heldBefore x)
  · refine ⟨.inr ⟨report, hcrash⟩, fun _ => ?_, fun _ => ⟨report, hcrash⟩⟩
    by_contra hnone
    apply hcyclic
    intro x hcycle
    exact hnone ⟨x, TransGen.mono (fun u v => htraced.push_lower hrun hedges) x x hcycle⟩

/-- Two locks taken in one order and released, and the second one again. -/
def inverted : List (Call Char) := [.push 'a', .push 'b', .pop 'b', .pop 'a', .push 'b']

theorem popsKnown_inverted : PopsKnown inverted := by
  have hnil : PopsKnown ([] : List (Call Char)) := by simp [PopsKnown]
  have hpush {calls : List (Call Char)} (name : Char) (hcalls : PopsKnown calls) :
      PopsKnown (calls ++ [.push name]) :=
    popsKnown_snoc.mpr ⟨hcalls, fun _ heq => by cases heq⟩
  have hpop {calls : List (Call Char)} (name : Char) (hcalls : PopsKnown calls)
      (hname : .push name ∈ calls) : PopsKnown (calls ++ [.pop name]) :=
    popsKnown_snoc.mpr ⟨hcalls, fun _ heq => by cases heq; exact hname⟩
  exact hpush 'b' (hpop 'a' (hpop 'b' (hpush 'b' (hpush 'a' hnil)) (by decide)) (by decide))

/-- The first lock after the second closes a cycle of held-before, and the push
crashes. -/
theorem pushLock_crashes_inverted :
    ∃ s, run inverted = .ok s ∧
      s.pushLock 'a' = .error (.crash .deadlockDetected [(some 'b', some 'a'), (some 'a', some 'b')]) ∧
      ∃ x, TransGen (HeldBefore (inverted ++ [.push 'a'])) x x := by
  have hcrash : (run inverted >>= fun s => s.pushLock 'a') =
      .error (.crash .deadlockDetected [(some 'b', some 'a'), (some 'a', some 'b')]) := by
    rfl
  have hrun : (run inverted).isOk = true := by decide
  cases hs : run inverted with
  | error fault =>
    rw [hs] at hrun
    cases hrun
  | ok s =>
    rw [hs, ok_bind] at hcrash
    exact ⟨s, rfl, hcrash, ((pushLock_crashes_iff popsKnown_inverted hs).2.2 'a').2.mp ⟨_, hcrash⟩⟩

end Profiler

end CppServer.DeadLockProfiler
