import HaloIndex.IndexSet.Basic
import HaloIndex.NatMap

namespace HaloIndex

/-- A set together with its holdings by slot, and how many slots are looked at. -/
structure SlotView (G A : Type) where
  set : IndexSet G A
  size : Nat
  bySlot : NatMap (Holding G A)

namespace SlotView

variable {G A : Type}

/-- No table can have this many entries: at sixteen bytes each it would take up more than half of
the addresses. -/
def capacity : Nat := 576460752303423488

/-- Look at the slots below `size`; every slot in use must be one of them. The table with one
entry for each of these slots is made before any slot is looked at. -/
def withSize (set : IndexSet G A) (size : Nat) : Except Fault (SlotView G A) := do
  set.require "GlobalLookupIndexSet::new" .ground
  if capacity ≤ size then throw (.panicked "capacity overflow")
  else
    match set.holdings.find? (fun h => decide (size ≤ h.slot)) with
    | some h => throw (.outOfRange h.slot size)
    | none => return ⟨set, size, .ofList (set.holdings.map fun h => (h.slot, h))⟩

def ofSet (set : IndexSet G A) : Except Fault (SlotView G A) :=
  withSize set ((set.holdings.map fun h => slotAfter h.slot).max?.getD 0)

def holdingAt (v : SlotView G A) (slot : Nat) : Option (Holding G A) := v.bySlot.get? slot

variable [DecidableEq G] [LT G] [DecidableLT G]

def find (v : SlotView G A) (globalId : G) : Option (Holding G A) := v.set.lookup globalId

end SlotView

end HaloIndex
