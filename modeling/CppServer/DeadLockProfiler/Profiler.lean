import CppServer.Base.OrderedSet
import CppServer.CoreMacro

namespace CppServer.DeadLockProfiler

open Base

/-- How the profiler's code can end other than by returning. A report is the
list of the pairs that it prints before the crash. -/
inductive Fault (Node : Type)
  | crash (cause : Cause) (report : List (Node × Node))
  /-- A vector is accessed outside its bounds. -/
  | outOfRange
  /-- The report goes up from a node whose `_parent` is -1. -/
  | noParent
  /-- The bound on the recursion or on the report's loop is used up; not an
  outcome of the code. -/
  | outOfFuel
deriving DecidableEq, Repr

def Fault.map {Node Node' : Type} (f : Node → Node') : Fault Node → Fault Node'
  | .crash cause report => .crash cause (report.map (Prod.map f f))
  | .outOfRange => .outOfRange
  | .noParent => .noParent
  | .outOfFuel => .outOfFuel

/-- `_lockHistory`: the edges of each lock id that has any. -/
abbrev History := AList (fun _ : ℕ => OrderedSet ℕ)

/-- The temporaries of one cycle check. An order or a parent of -1 is `none`. Ids,
orders and counts are of type `int32`; natural numbers stand for them, for fewer
than 2^31 names. -/
structure Search where
  discoveredOrder : List (Option ℕ)
  discoveredCount : ℕ
  finished : List Bool
  parent : List (Option ℕ)
deriving DecidableEq

/-- Read an element of a vector. -/
def read {α Node : Type} (v : List α) (i : ℕ) : Except (Fault Node) α :=
  match v[i]? with
  | some a => .ok a
  | none => .error .outOfRange

/-- Write an element of a vector. -/
def write {α Node : Type} (v : List α) (i : ℕ) (a : α) : Except (Fault Node) (List α) :=
  if i < v.length then .ok (v.set i a) else .error .outOfRange

namespace Search

/-- The search before it has discovered a node. -/
def fresh (lockCount : ℕ) : Search where
  discoveredOrder := .replicate lockCount none
  discoveredCount := 0
  finished := .replicate lockCount false
  parent := .replicate lockCount none

def discover (s : Search) (here : ℕ) : Except (Fault ℕ) Search := do
  let discoveredOrder ← write s.discoveredOrder here (some s.discoveredCount)
  return { s with discoveredOrder, discoveredCount := s.discoveredCount + 1 }

def finish (s : Search) (here : ℕ) : Except (Fault ℕ) Search := do
  let finished ← write s.finished here true
  return { s with finished }

def setParent (s : Search) (there here : ℕ) : Except (Fault ℕ) Search := do
  let parent ← write s.parent there (some here)
  return { s with parent }

/-- The pairs that the report prints on its way from `now` up to `there`. -/
def walk (parent : List (Option ℕ)) (there : ℕ) : ℕ → ℕ → Except (Fault ℕ) (List (ℕ × ℕ))
  | 0, _ => .error .outOfFuel
  | fuel + 1, now => do
    match ← read parent now with
    | none => .error .noParent
    | some up =>
      if up = there then return [(up, now)]
      else return (up, now) :: (← walk parent there fuel up)

/-- One round of the loop over the successors of `here`; `descend` is the
recursive call. -/
def visit (descend : ℕ → Search → Except (Fault ℕ) Search) (here : ℕ) (s : Search)
    (there : ℕ) : Except (Fault ℕ) Search := do
  match ← read s.discoveredOrder there with
  | none =>
    let s ← s.setParent there here
    descend there s
  | some order =>
    -- -1 would be below every order
    if (← read s.discoveredOrder here).all (· < order) then return s
    else if ← read s.finished there then return s
    else
      let edges ← walk s.parent there s.parent.length here
      .error (.crash .deadlockDetected ((here, there) :: edges))

/-- `Dfs`, to a recursion depth below `fuel`. -/
def dfs (history : History) : ℕ → ℕ → Search → Except (Fault ℕ) Search
  | 0, _, _ => .error .outOfFuel
  | fuel + 1, here, s => do
    match ← read s.discoveredOrder here with
    | some _ => return s
    | none =>
      let s ← s.discover here
      match history.lookup here with
      | none => s.finish here
      | some nextSet =>
        let s ← nextSet.toList.foldlM (visit (dfs history fuel) here) s
        s.finish here

end Search

/-- `CheckCycle`: the search's temporaries live only as long as the check. The
recursion is at most as deep as there are locks. -/
def checkCycle (history : History) (lockCount : ℕ) : Except (Fault ℕ) Unit := do
  let _ ← (List.range lockCount).foldlM (fun s lockId => Search.dfs history (lockCount + 1) lockId s)
    (Search.fresh lockCount)
  return

/-- The profiler between two calls. Names are keys by identity, as the pointers
of the source are; there are fewer than 2^31 of them, so that no `int32` id
overflows. The head of the stack is its top. -/
structure Profiler (Name : Type) where
  nameToId : AList (fun _ : Name => ℕ) := ∅
  idToName : AList (fun _ : ℕ => Name) := ∅
  lockStack : List ℕ := []
  lockHistory : History := ∅

namespace Profiler

variable {Name : Type} [DecidableEq Name]

/-- `_nameToId.size()`. -/
def lockCount (s : Profiler Name) : ℕ := s.nameToId.keys.length

/-- Find the id of a name, or issue the next one. -/
def register (s : Profiler Name) (name : Name) : ℕ × Profiler Name :=
  match s.nameToId.lookup name with
  | some lockId => (lockId, s)
  | none =>
    let lockId := s.lockCount
    (lockId, { s with
      nameToId := s.nameToId.insert name lockId
      idToName := s.idToName.insert lockId name })

/-- `_lockHistory[prevId]`, empty for an id that has no entry yet. -/
def history (s : Profiler Name) (prevId : ℕ) : OrderedSet ℕ :=
  (s.lockHistory.lookup prevId).getD .empty

def record (s : Profiler Name) (prevId lockId : ℕ) : Profiler Name :=
  { s with lockHistory := s.lockHistory.insert prevId ((s.history prevId).insert lockId) }

/-- Run the cycle check; the report prints names. -/
def check (s : Profiler Name) : Except (Fault (Option Name)) (Profiler Name) :=
  match checkCycle s.lockHistory s.lockCount with
  | .ok () => .ok s
  | .error fault => .error (fault.map fun lockId => s.idToName.lookup lockId)

def pushLock (s : Profiler Name) (name : Name) : Except (Fault (Option Name)) (Profiler Name) := do
  let (lockId, s) := s.register name
  let s ←
    match s.lockStack with
    | [] => pure s
    | prevId :: _ =>
      if lockId ≠ prevId ∧ lockId ∉ s.history prevId then (s.record prevId lockId).check
      else pure s
  return { s with lockStack := lockId :: s.lockStack }

def popLock (s : Profiler Name) (name : Name) : Except (Fault (Option Name)) (Profiler Name) :=
  match s.lockStack with
  | [] => .error (.crash .multipleUnlock [])
  | top :: rest =>
    -- `_nameToId[name]` gives an unknown name the id 0, in this table only
    let (lockId, nameToId) :=
      match s.nameToId.lookup name with
      | some lockId => (lockId, s.nameToId)
      | none => (0, s.nameToId.insert name 0)
    if lockId ≠ top then .error (.crash .invalidUnlock [])
    else .ok { s with nameToId, lockStack := rest }

end Profiler

end CppServer.DeadLockProfiler
