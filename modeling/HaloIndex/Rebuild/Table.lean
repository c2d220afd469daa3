import HaloIndex.Rebuild.Exchange
import HaloIndex.Transport.Reduction

namespace HaloIndex

inductive Route where
  | ring
  | neighbours
  deriving DecidableEq

namespace LinkTable

variable {G A : Type} [Scalar G] [Role A] [LT G] [LT A] [DecidableEq G] [DecidableEq A]
  [DecidableLT G] [DecidableLT A]

def route (t : LinkTable G A) (size : Nat) : Except Fault Route :=
  if size ≤ 1 then .ok .neighbours
  else match t.settings.strategy with
    | .ring => .ok .ring
    | .neighbours =>
      if t.neighbours.isEmpty then
        .error (.badSettings "neighbour exchange requested without a neighbour set")
      else .ok .neighbours
    | .auto =>
      if !t.neighbours.isEmpty then .ok .neighbours
      else if t.settings.allowRing then .ok .ring
      else .error (.badSettings "no neighbour set supplied and the ring fallback is disabled")

/-- The links to all ranks, found by exchanging publications. Links of the rank to itself come
first: they are wanted when there are two sets or the settings ask for them. -/
def collect (s : Station) (ends : Endpoints G A) (ignorePublic : Bool) (settings : TableSettings)
    (neighbours : RankSet) (route : Route) : Talk (NatMap (Links G A)) := do
  let wantsSelf := !ends.isOne || settings.includeSelf
  if s.size = 1 && !wantsSelf then return .empty
  let own := Publication.ofEndpoints ends ignorePublic
  let message ← Talk.ofExcept (own.encode s.registry)
  let loopBack ← if wantsSelf then
      Talk.ofExcept (own.linksFrom s.registry message settings.includeSelf)
    else pure none
  let links := Publication.enter .empty s.rank loopBack
  match route with
  | .ring => own.circulate s settings.rebuildTag s.origins message links
  | .neighbours => own.swap s settings.rebuildTag neighbours.keys message links

/-- Find all links anew. A rank is not its own neighbour. From the moment the exchange begins the
table has no links until the exchange has succeeded. -/
def rebuild (t : LinkTable G A) (s : Station) (ends : Endpoints G A) (ignorePublic : Bool) :
    Program (Except Fault Unit × LinkTable G A) := do
  match (do ends.source.require "rebuild" .ground; ends.dest.require "rebuild" .ground) with
  | .error f => return (.error f, t)
  | .ok () =>
    let t := { t with neighbours := t.neighbours.erase s.rank }
    match t.route s.size with
    | .error f => return (.error f, t)
    | .ok route =>
      match ← (collect s ends ignorePublic t.settings t.neighbours route).run with
      | .error f => return (.error f, t.clear)
      | .ok links =>
        return (.ok (),
          { t with links, isShared := ends.isOne, publicIgnored := ignorePublic }.align
            ends.source ends.dest)

/-- Rebuild unless every rank holds a table that is aligned and was built with the same treatment
of public flags. The answer says whether there was a rebuild. -/
def ensureSynced (t : LinkTable G A) (s : Station) (ends : Endpoints G A) (ignorePublic : Bool) :
    Program (Except Fault Bool × LinkTable G A) := do
  let fresh := t.publicIgnored == ignorePublic && t.isSynced ends.source ends.dest
  match ← (s.reduceAnd fresh).run with
  | .error f => return (.error f, t)
  | .ok true => return (.ok false, t)
  | .ok false =>
    let (outcome, t) ← t.rebuild s ends ignorePublic
    return (outcome.map fun _ => true, t)

end LinkTable

end HaloIndex
