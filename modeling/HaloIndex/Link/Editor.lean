import HaloIndex.Link.Table

namespace HaloIndex

/-- A list of links under edit, the set its local keys must be held in, where the next search
begins, and the last link that was accepted. -/
structure LinkEditor (G A : Type) where
  rank : Nat
  set : IndexSet G A
  links : List (Link G A)
  cursor : Nat := 0
  last : Option (Link G A) := none

variable {G A : Type}

/-- Begin to edit the list of a rank, which is created if it is missing. From here on the table
counts as aligned with the set in both roles. -/
def LinkTable.edit (t : LinkTable G A) (rank : Nat) (set : IndexSet G A) :
    Except Fault (LinkEditor G A × LinkTable G A) := do
  set.require "modifier" .ground
  if t.links.entries.any (!·.2.isShared) then throw .sharedLinksRequired
  let links := ((t.links.get? rank).map Links.send).getD []
  return (⟨rank, set, links, 0, none⟩,
    { t with links := t.links.insert rank (.shared links), isShared := true }.align set set)

def LinkTable.adopt (t : LinkTable G A) (e : LinkEditor G A) : LinkTable G A :=
  { t with links := t.links.insert e.rank (.shared e.links) }

namespace LinkEditor

variable [LT G] [LT A] [DecidableEq G] [DecidableEq A] [DecidableLT G] [DecidableLT A]

/-- Insert a link above the last one accepted; the answer is false if it was there already. -/
def insert [Scalar G] [Role A] (e : LinkEditor G A) (link : Link G A) :
    Except Fault (Bool × LinkEditor G A) := do
  if e.last.any fun last => !decide (last < link) then
    throw (.insertOutOfOrder e.rank (Scalar.text link.globalId))
  let _ ← link.holding e.set
  let place :=
    e.cursor + Bisection.partitionPoint (fun l => decide (l < link)) (e.links.drop e.cursor)
  if e.links[place]? = some link then
    return (false, { e with cursor := place, last := some link })
  else
    return (true,
      { e with links := e.links.insertIdx place link, cursor := place + 1, last := some link })

/-- Remove every link of a global identifier; the answer is how many there were. -/
def remove (e : LinkEditor G A) (globalId : G) : Nat × LinkEditor G A :=
  let links := e.links.filter fun l => decide (l.globalId ≠ globalId)
  let cursor := Bisection.partitionPoint (fun l => decide (l.globalId < globalId)) links
  (e.links.length - links.length, { e with links, cursor })

end LinkEditor

end HaloIndex
