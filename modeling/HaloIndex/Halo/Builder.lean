import HaloIndex.Halo.Plan
import HaloIndex.Link.Table

namespace HaloIndex

/-- The roles that values are sent from and the roles that receive them. -/
structure RoleFilter (A : Type) where
  source : RolePredicate A
  dest : RolePredicate A

namespace RoleFilter

variable {G A : Type}

def sends (f : RoleFilter A) (l : Link G A) : Bool := f.dest l.remoteRole && f.source l.localRole

def receives (f : RoleFilter A) (l : Link G A) : Bool :=
  f.source l.remoteRole && f.dest l.localRole

end RoleFilter

namespace HaloPlan

variable {G A : Type}

def reservations (f : RoleFilter A) (rank : Nat) (links : Links G A) : List PlanStep :=
  [.reserve rank .send (links.send.countP f.sends),
    .reserve rank .receive (links.receive.countP f.receives)]

variable [Scalar G] [LT G] [LT A] [DecidableEq G] [DecidableLT G] [DecidableLT A]

def additions (set : IndexSet G A) (rank : Nat) (direction : Direction) :
    List (Link G A) → List PlanStep × Except Fault Unit
  | [] => ([], .ok ())
  | link :: rest =>
    match set.findKey link.localKey with
    | .error f => ([], .error f)
    | .ok none => ([], .error (.danglingLink rank (Scalar.text link.globalId)))
    | .ok (some h) =>
      let (steps, outcome) := additions set rank direction rest
      (.add rank direction h.slot :: steps, outcome)

def inTurn : List (List PlanStep × Except Fault Unit) → List PlanStep × Except Fault Unit
  | [] => ([], .ok ())
  | (steps, .error f) :: _ => (steps, .error f)
  | (steps, .ok ()) :: rest =>
    let (others, outcome) := inTurn rest
    (steps ++ others, outcome)

/-- The steps that fill a plan, and whether they are complete: a link without a slot ends
them. -/
def steps (table : LinkTable G A) (source dest : IndexSet G A) (f : RoleFilter A) :
    List PlanStep × Except Fault Unit :=
  let room := table.links.entries.flatMap fun (rank, links) => reservations f rank links
  let (slots, outcome) := inTurn <| table.links.entries.flatMap fun (rank, links) =>
    [additions source rank .send (links.send.filter f.sends),
      additions dest rank .receive (links.receive.filter f.receives)]
  (room ++ slots, outcome)

def stepsOfSynced (table : LinkTable G A) (source dest : IndexSet G A) (f : RoleFilter A) :
    Except Fault (List PlanStep × Except Fault Unit) := do
  table.checkSynced source dest
  return steps table source dest f

/-- Make a plan anew, keeping only ranks with something to exchange. A stale table is refused and
the plan stays; any other fault leaves it empty. -/
def build (p : HaloPlan) (table : LinkTable G A) (source dest : IndexSet G A)
    (f : RoleFilter A) :
    Except Fault Unit × HaloPlan :=
  match stepsOfSynced table source dest f with
  | .error fault => (.error fault, p)
  | .ok (_, .error fault) => (.error fault, empty)
  | .ok (steps, .ok ()) => (.ok (), (empty.applyAll steps).strip)

end HaloPlan

end HaloIndex
