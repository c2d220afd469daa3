import HaloIndex.IndexSet.Basic

namespace HaloIndex

namespace IndexSet

variable {G A : Type}

def select (s : IndexSet G A) (admits : RolePredicate A) : Except Fault (List Nat) := do
  s.require "Selection::new" .ground
  return (s.holdings.filter fun h => admits h.role).map Holding.slot

variable [DecidableEq G] [LT G] [DecidableLT G]

def find (s : IndexSet G A) (globalId : G) : Except Fault (Option (Holding G A)) := do
  s.require "find" .ground
  return s.lookup globalId

def get [Scalar G] (s : IndexSet G A) (globalId : G) : Except Fault (Holding G A) := do
  match ← s.find globalId with
  | some h => return h
  | none => throw (.unknownGlobal (Scalar.text globalId))

def contains (s : IndexSet G A) (globalId : G) : Except Fault Bool := do
  return (← s.find globalId).isSome

def rolesOf (s : IndexSet G A) (globalId : G) : Except Fault (List (Holding G A)) := do
  s.require "roles_of" .ground
  return (s.splitAtGlobal globalId).2.1

variable [LT A] [DecidableLT A]

def findKey (s : IndexSet G A) (key : Key G A) : Except Fault (Option (Holding G A)) := do
  s.require "find_pair" .ground
  return s.holdingOf key

end IndexSet

end HaloIndex
