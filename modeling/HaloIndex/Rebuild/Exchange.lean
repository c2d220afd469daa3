import HaloIndex.Rebuild.Matching
import HaloIndex.Transport.Exchange
import HaloIndex.Transport.Station

namespace HaloIndex

namespace Station

def right (s : Station) : Nat := (s.rank + 1) % s.size

def left (s : Station) : Nat := (s.rank + s.size - 1) % s.size

/-- The ranks whose messages come by in rounds one, two and so on: each lies one further to the
left. -/
def origins (s : Station) : List Nat :=
  (List.range' 1 (s.size - 1)).map fun round => (s.rank + s.size - round) % s.size

/-- Pass a message on to the right and take the next one from the left. Even ranks send first. -/
def passOn (s : Station) (tag : Tag) (outgoing : List UInt8) : Talk (List UInt8) := do
  if s.rank % 2 = 0 then
    Talk.send s.right tag outgoing
    Talk.receive s.left tag
  else
    let incoming ← Talk.receive s.left tag
    Talk.send s.right tag outgoing
    return incoming

end Station

namespace Publication

variable {G A : Type} [Scalar G] [Role A] [LT G] [LT A] [DecidableEq G] [DecidableEq A]
  [DecidableLT G] [DecidableLT A]

def enter (links : NatMap (Links G A)) (rank : Nat) : Option (Links G A) → NatMap (Links G A)
  | some found => links.insert rank found
  | none => links

def circulate (s : Station) (tag : Tag) (own : Publication G A) :
    (origins : List Nat) → (outgoing : List UInt8) → NatMap (Links G A) → Talk
    (NatMap (Links G A))
  | [], _, links => return links
  | origin :: rest, outgoing, links => do
    let incoming ← s.passOn tag outgoing
    let found ← Talk.ofExcept (own.linksFrom s.registry incoming false)
    circulate s tag own rest incoming (enter links origin found)

/-- Take the publication of a neighbour, whose length must be the one that was announced. -/
def takeFrom (s : Station) (tag : Tag) (own : Publication G A) (neighbour : Nat) :
    Talk (Option (Links G A)) := do
  let envelope ← Talk.probe (.rank neighbour) tag
  let payload ← Talk.receive neighbour tag
  let probed := envelope.length
  let received := payload.length
  if received ≠ probed then
    throw (.communication neighbour s!"probed {probed} bytes but received {received}")
  Talk.ofExcept (own.linksFrom s.registry payload false)

def swap (s : Station) (tag : Tag) (own : Publication G A) (neighbours : List Nat)
    (message : List UInt8) (links : NatMap (Links G A)) : Talk (NatMap (Links G A)) := do
  let take (neighbour : Nat) (links : NatMap (Links G A)) :
      Program (Except Fault Unit × NatMap (Links G A)) := do
    match ← (takeFrom s tag own neighbour).run with
    | .ok found => return (.ok (), enter links neighbour found)
    | .error f => return (.error f, links)
  let (outcome, links) ←
      (Exchange.round tag (neighbours.map fun n => (n, .ok message)) take links :
    Program _)
  Talk.ofExcept outcome
  return links

end Publication

end HaloIndex
