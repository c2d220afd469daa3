namespace HaloIndex

/-- Keeps the messages of different exchanges apart. -/
abbrev Tag := UInt16

namespace Tag

def rebuild : Tag := 333

def sync : Tag := 345

def collective : Tag := 0x7FF0

end Tag

def wireVersion : Nat := 2

/-- How a rebuild finds the ranks that share identifiers. -/
inductive Strategy where
  /-- The declared neighbours if there are any, otherwise the ring. -/
  | auto
  /-- Pass every publication around a ring of all ranks. -/
  | ring
  | neighbours
  deriving DecidableEq

namespace Strategy

def text : Strategy → String
  | auto => "auto"
  | ring => "ring"
  | neighbours => "neighbours"

def all : List Strategy := [auto, ring, neighbours]

end Strategy

structure TableSettings where
  strategy : Strategy := .auto
  /-- Link this rank to itself when one set is both source and destination. -/
  includeSelf : Bool := false
  rebuildTag : Tag := Tag.rebuild
  /-- Let `auto` use the ring when no neighbours are declared. -/
  allowRing : Bool := true
  /-- The number of ranks above which a ring is worth a warning. -/
  ringWarnThreshold : Nat := 64
  deriving DecidableEq

structure SyncSettings where
  tag : Tag := Tag.sync
  deriving DecidableEq

end HaloIndex
