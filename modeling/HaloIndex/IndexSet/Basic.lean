import HaloIndex.Bisection
import HaloIndex.Fault
import HaloIndex.IndexSet.Holding

namespace HaloIndex

/-- A key that waits for the next commit, with its slot if the caller chose one. -/
structure Addition (G A : Type) where
  key : Key G A
  slot : Option Nat
  isPublic : Bool
  deriving DecidableEq

/-- The holdings of one rank. The keys of the additions are kept apart from them as well, to be
looked up. The revision counts the commits so far. -/
structure IndexSet (G A : Type) where
  holdings : List (Holding G A) := []
  additions : List (Addition G A) := []
  pendingKeys : List (Key G A) := []
  phase : Phase := .ground
  revision : Nat := 0
  deriving DecidableEq

namespace IndexSet

open Bisection

variable {G A : Type}

def empty : IndexSet G A := {}

def keys (s : IndexSet G A) : List (Key G A) := s.holdings.map Holding.key

def size (s : IndexSet G A) : Nat := s.holdings.length

def isEmpty (s : IndexSet G A) : Bool := s.holdings.isEmpty

def require (s : IndexSet G A) (operation : String) (expected : Phase) : Except Fault Unit :=
  if s.phase = expected then .ok () else .error (.wrongPhase operation expected s.phase)

def sameKeys [DecidableEq G] [DecidableEq A] (s t : IndexSet G A) : Bool :=
  decide (s.keys = t.keys)

def text [Scalar G] [Role A] (s : IndexSet G A) : String :=
  "\x7b" ++ ", ".intercalate (s.holdings.map Holding.text) ++ "\x7d"

variable [DecidableEq G] [LT G] [DecidableLT G]

def startOf (s : IndexSet G A) (globalId : G) : Nat :=
  partitionPoint (fun h => decide (h.globalId < globalId)) s.holdings

def splitAtGlobal (s : IndexSet G A) (globalId : G) :
    List (Holding G A) × List (Holding G A) × List (Holding G A) :=
  let (before, rest) := s.holdings.splitAt (s.startOf globalId)
  let count := partitionPoint (fun h => decide (h.globalId = globalId)) rest
  (before, rest.splitAt count)

def lookup (s : IndexSet G A) (globalId : G) : Option (Holding G A) :=
  s.holdings[s.startOf globalId]?.filter fun h => decide (h.globalId = globalId)

variable [LT A] [DecidableLT A]

def positionOf (s : IndexSet G A) (key : Key G A) : Option Nat :=
  match locate (fun h => compared h.key key) s.holdings with
  | .found position => some position
  | .absent _ => none

def holdingOf (s : IndexSet G A) (key : Key G A) : Option (Holding G A) :=
  (s.positionOf key).bind (s.holdings[·]?)

def isLive (s : IndexSet G A) (key : Key G A) : Bool := (s.holdingOf key).any (!·.isDeleted)

def isPending [DecidableEq A] (s : IndexSet G A) (key : Key G A) : Bool :=
  s.pendingKeys.contains key

def holds [DecidableEq A] (s : IndexSet G A) (key : Key G A) : Bool :=
  s.isLive key || s.isPending key

def misplaced : List (Holding G A) → Option (Holding G A × Holding G A)
  | a :: b :: rest => if a.key < b.key then misplaced (b :: rest) else some (a, b)
  | _ => none

def validate [Scalar G] [Role A] (s : IndexSet G A) : Except Fault Unit :=
  match misplaced s.holdings with
  | some (a, b) =>
    let first := a.text
    let second := b.text
    .error (.brokenInvariant s!"index pairs out of order: {first} before {second}")
  | none =>
    match s.holdings.find? (·.isDeleted) with
    | some h =>
      let shown := h.text
      if s.phase = .ground then
        .error (.brokenInvariant s!"deleted pair {shown} survived a commit")
      else .ok ()
    | none => .ok ()

end IndexSet

end HaloIndex
