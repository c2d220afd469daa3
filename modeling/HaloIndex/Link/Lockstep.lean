import HaloIndex.Link.Table

namespace HaloIndex

/-- What the lanes are to be moved to: a global identifier, or one of its local keys. -/
structure Target (G A : Type) where
  globalId : G
  role : Option A
  deriving DecidableEq

/-- The links that lie ahead for each rank, and the target in force. -/
structure Lockstep (G A : Type) where
  lanes : NatMap (List (Link G A))
  target : Option (Target G A) := none
  deriving DecidableEq

variable {G A : Type} [DecidableEq G] [DecidableEq A]

def Target.isAt (t : Target G A) (l : Link G A) : Bool :=
  decide (l.globalId = t.globalId) && t.role.all fun a => decide (l.localRole = a)

def Target.isAfter [LT G] [LT A] [DecidableLT G] [DecidableLT A] (t : Target G A)
    (l : Link G A) : Bool :=
  match t.role with
  | none => decide (l.globalId < t.globalId)
  | some a => decide (l.localKey < ⟨t.globalId, a⟩)

namespace Lockstep

/-- Begin at the front of every list. Empty lists make no lane, and of two lists for one rank the
later counts. -/
def ofLists (lists : List (Nat × List (Link G A))) : Lockstep G A :=
  ⟨.ofList (lists.filter fun e => !e.2.isEmpty), none⟩

def moveLanes (s : Lockstep G A) (move : List (Link G A) → List (Link G A)) : Lockstep G A :=
  { s with lanes := (s.lanes.map move).filter fun _ lane => !lane.isEmpty }

def isAtTarget (s : Lockstep G A) (l : Link G A) : Bool := s.target.any (·.isAt l)

def bump (s : Lockstep G A) : Lockstep G A :=
  if s.target.isSome then s.moveLanes (·.dropWhile s.isAtTarget) else s

def current (s : Lockstep G A) : List (Nat × Link G A) :=
  s.lanes.entries.flatMap fun e => (e.2.takeWhile s.isAtTarget).map fun l => (e.1, l)

def matchingRanks (s : Lockstep G A) : List Nat :=
  (s.lanes.entries.filter fun e => e.2.head?.any s.isAtTarget).map (·.1)

def isEmpty (s : Lockstep G A) : Bool := s.lanes.isEmpty

variable [LT G] [LT A] [DecidableLT G] [DecidableLT A]

/-- Move every lane to its first link that is not before the target. -/
def advance (s : Lockstep G A) (target : Target G A) : Lockstep G A :=
  { s.moveLanes fun lane => lane.drop (Bisection.partitionPoint target.isAfter lane) with
    target := some target }

def ofTable (table : LinkTable G A) (side : Links G A → List (Link G A))
    (source dest : IndexSet G A) :
    Except Fault (Lockstep G A) := do
  table.checkSynced source dest
  return ofLists (table.links.entries.map fun e => (e.1, side e.2))

end Lockstep

end HaloIndex
