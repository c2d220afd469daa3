import HaloIndex.Rebuild.Publication

namespace HaloIndex

variable {G A : Type} [LT G] [LT A] [DecidableEq G] [DecidableEq A] [DecidableLT G]
  [DecidableLT A]

namespace Link

def keysFrom (g : G) (here : List (Key G A)) : List (Key G A) :=
  here.drop (Bisection.partitionPoint (fun k => decide (k.globalId < g)) here)

/-- Go through ascending remote and local keys in step and link those with the same identifier.
Links that join equal roles are left out when both lists are our own. -/
def joins (ownKeys : Bool) : (remote here : List (Key G A)) → List (Link G A)
  | [], _ => []
  | r :: remote, here =>
    -- The next remote key may name the same identifier, so what was linked here stays ahead.
    let ahead := keysFrom r.globalId here
    let same := ahead.takeWhile fun k => decide (k.globalId = r.globalId)
    let wanted := same.filter fun k => !ownKeys || decide (k.role ≠ r.role)
    wanted.map (fun k => ⟨r.globalId, k.role, r.role⟩) ++ joins ownKeys remote ahead

def matched (ownKeys : Bool) (remote here : List (Key G A)) : List (Link G A) :=
  (sorted (joins ownKeys remote here)).eraseReps

end Link

namespace Publication

/-- Our links to the rank with the other publication. With one set on either side the two
directions share a list. -/
def linksWith (own other : Publication G A) (ownKeys : Bool) : Links G A :=
  if own.dest.isSome || other.dest.isSome then
    .split (Link.matched ownKeys other.destKeys own.source)
      (Link.matched ownKeys other.source own.destKeys)
  else .shared (Link.matched ownKeys other.source own.source)

def linksFrom [Scalar G] [Role A] (registry : Registry) (own : Publication G A)
    (buffer : List UInt8) (ownKeys : Bool) : Except Fault (Option (Links G A)) := do
  let other ← decode registry buffer
  let links := own.linksWith other ownKeys
  return if links.isEmpty then none else some links

end Publication

end HaloIndex
