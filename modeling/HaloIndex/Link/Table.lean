import HaloIndex.Link.Basic
import HaloIndex.NatMap
import HaloIndex.Settings

namespace HaloIndex

/-- The sets an exchange is about: one set in both roles, or a source and a destination. -/
inductive Endpoints (G A : Type) where
  | one (set : IndexSet G A)
  | two (source dest : IndexSet G A)

namespace Endpoints

variable {G A : Type}

def source : Endpoints G A → IndexSet G A
  | one set => set
  | two source _ => source

def dest : Endpoints G A → IndexSet G A
  | one set => set
  | two _ dest => dest

def isOne : Endpoints G A → Bool
  | one _ => true
  | two _ _ => false

end Endpoints

/-- The links of a rank, with what is known of how they came about. -/
structure LinkTable (G A : Type) where
  links : NatMap (Links G A) := .empty
  neighbours : RankSet := .empty
  settings : TableSettings := {}
  sourceRevision : Option Nat := none
  destRevision : Option Nat := none
  publicIgnored : Bool := false
  isShared : Bool := false
  deriving DecidableEq

namespace LinkTable

variable {G A : Type}

def withSettings (settings : TableSettings) (neighbours : RankSet) : LinkTable G A :=
  { settings, neighbours }

def clear (t : LinkTable G A) : LinkTable G A :=
  { t with links := .empty, sourceRevision := none, destRevision := none }

/-- Record the revisions of the two sets as the ones the links belong to. -/
def align (t : LinkTable G A) (source dest : IndexSet G A) : LinkTable G A :=
  { t with sourceRevision := some source.revision, destRevision := some dest.revision }

def isSynced (t : LinkTable G A) (source dest : IndexSet G A) : Bool :=
  t.sourceRevision == some source.revision && t.destRevision == some dest.revision

def checkSynced (t : LinkTable G A) (source dest : IndexSet G A) : Except Fault Unit :=
  if t.isSynced source dest then .ok ()
  else .error (.staleTable source.revision t.sourceRevision dest.revision t.destRevision)

def sameLinks [DecidableEq G] [DecidableEq A] (t u : LinkTable G A) : Bool :=
  decide (t.links = u.links)

def linksTo (t : LinkTable G A) (rank : Nat) : Option (Links G A) := t.links.get? rank

def text [Scalar G] [Role A] (t : LinkTable G A) : String :=
  let line (links : List (Link G A)) : String := " ".intercalate (links.map Link.text)
  let listing (e : Nat × Links G A) : String :=
    let rank := e.1
    let send := line e.2.send
    let receive := line e.2.receive
    s!"process {rank}:\n  send: {send}\n" ++
      (if e.2.isShared then "" else s!"  receive: {receive}\n")
  String.join (t.links.entries.map listing)

variable [LT G] [LT A] [DecidableEq G] [DecidableEq A] [DecidableLT G] [DecidableLT A]

/-- Drop the links whose local key is gone and align the table; the count is of the links
dropped. Ranks keep their entry even when no link is left, so that the neighbour relation stays
symmetric. -/
def prune (t : LinkTable G A) (source dest : IndexSet G A) :
    Except Fault (Nat × LinkTable G A) := do
  source.require "revalidate" .ground
  dest.require "revalidate" .ground
  let resolves (set : IndexSet G A) (l : Link G A) : Bool := (set.positionOf l.localKey).isSome
  let kept := t.links.map (·.filter (resolves source) (resolves dest))
  let count (links : NatMap (Links G A)) : Nat := (links.entries.flatMap (·.2.toList)).length
  return (count t.links - count kept, { t with links := kept }.align source dest)

def misplaced : List (Link G A) → Option (Link G A × Link G A)
  | a :: b :: rest => if a < b then misplaced (b :: rest) else some (a, b)
  | _ => none

def checkList [Scalar G] [Role A] (rank : Nat) (links : List (Link G A)) : Except Fault Unit :=
  match misplaced links with
  | some (a, b) =>
    let first := a.text
    let second := b.text
    .error (.brokenInvariant
      s!"list for process {rank} not strictly ascending: {first} before {second}")
  | none => .ok ()

def validate [Scalar G] [Role A] (t : LinkTable G A) : Except Fault Unit :=
  t.links.entries.forM fun (rank, links) => do
    checkList rank links.send
    checkList rank links.receive

end LinkTable

end HaloIndex
