/-!
# Lock order

A session is locked while it takes part in an operation.  Sessions are locked in
ascending order of their identifiers, and one that would be locked twice is
refused.
-/

namespace Isolate

/-- The identifier of a session. -/
abbrev SessionId := Nat

namespace SessionId

/-- The order in which two sessions are locked. -/
def pairOrder? (a b : SessionId) : Option (SessionId × SessionId) :=
  if a = b then none else if a < b then some (a, b) else some (b, a)

/-- Whether two neighbours in a list are equal. -/
def hasEqualNeighbours : List SessionId → Bool
  | a :: b :: rest => decide (a = b) || hasEqualNeighbours (b :: rest)
  | _ => false

/-- The order in which many sessions are locked. -/
def lockOrder? (ids : List SessionId) : Option (List SessionId) :=
  let order := ids.mergeSort
  if hasEqualNeighbours order then none else some order

end SessionId

/-- The access to the context of a locked session. -/
structure Guard where
  session : SessionId
  deriving DecidableEq, Inhabited

/-- What a thread does to get guards: it waits for one session at a time, and
goes on with the guard of that. -/
inductive Locking (α : Type)
  | done (result : α)
  | lock (session : SessionId) (next : Guard → Locking α)

namespace Locking

def map {α β : Type} (f : α → β) : Locking α → Locking β
  | done result => done (f result)
  | lock session next => lock session fun guard => (next guard).map f

/-- Locks two sessions and gives their guards in the order of the arguments, or
nothing if they are one session. -/
def pair (a b : SessionId) : Locking (Option (Guard × Guard)) :=
  if a = b then done none
  else if a < b then
    lock a fun first => lock b fun second => done (some (first, second))
  else
    lock b fun second => lock a fun first => done (some (first, second))

/-- Locks sessions one after another and gives each guard with its session. -/
def each : List SessionId → Locking (List (SessionId × Guard))
  | [] => done []
  | session :: rest =>
    lock session fun guard => (each rest).map ((session, guard) :: ·)

/-- Locks a source and its workers and gives each guard with its session, or
nothing if one of them comes twice. -/
def all (source : SessionId) (workers : List SessionId) :
    Locking (Option (List (SessionId × Guard))) :=
  let sessions := (source :: workers).mergeSort
  if SessionId.hasEqualNeighbours sessions then done none
  else (each sessions).map some

/-- The sessions that are locked, in order, and what comes of their guards. -/
def outcome {α : Type} : Locking α → List SessionId × α
  | done result => ([], result)
  | lock session next =>
    let (sessions, result) := (next ⟨session⟩).outcome
    (session :: sessions, result)

end Locking

end Isolate
