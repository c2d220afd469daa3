import HaloIndex.IndexSet.Resize
import HaloIndex.Sync.Announcement

namespace HaloIndex

/-- Chooses the slot of a discovered identifier, given those it was asked for before, oldest
first; none leaves the choice to the commit. -/
abbrev Numbering (G : Type) := (earlier : List G) → G → Option Nat

def freshSlots {G : Type} : Numbering G := fun _ _ => none

def slotsFrom {G : Type} (first distance : Nat) : Numbering G := fun earlier _ =>
  some (first + distance * earlier.length)

/-- Leave every second slot to the commit and take the others from another numbering. -/
def Numbering.everySecond {G : Type} (numbering : Numbering G) : Numbering G :=
  fun earlier globalId =>
  if earlier.length % 2 = 0 then numbering earlier globalId else none

/-- What a sync has learned so far: the set with its additions, the links to each rank, and the
identifiers for which a slot was asked, oldest first. -/
structure Discovery (G A : Type) where
  set : IndexSet G A
  links : NatMap (List (Link G A))
  asked : List G := []

namespace Discovery

variable {G A : Type}

/-- Do something for each item in turn, until it fails. The state is kept in either case. -/
def forEach {β σ : Type} (act : β → σ → Except Fault Unit × σ) :
    List β → σ → Except Fault Unit × σ
  | [], state => (.ok (), state)
  | item :: rest, state =>
    match act item state with
    | (.error f, state) => (.error f, state)
    | (.ok (), state) => forEach act rest state

variable [LT G] [LT A] [DecidableEq G] [DecidableEq A] [DecidableLT G] [DecidableLT A]

def insertLink (link : Link G A) (links : List (Link G A)) : List (Link G A) :=
  match Bisection.locate (fun l => Bisection.compared l link) links with
  | .found _ => links
  | .absent place => links.insertIdx place link

def record (d : Discovery G A) (rank : Nat) (link : Link G A) : Discovery G A :=
  { d with links := d.links.modify rank [] (insertLink link) }

variable [Scalar G] [Role A]

def hold (numbering : Numbering G) (key : Key G A) (d : Discovery G A) :
    Except Fault Unit × Discovery G A :=
  if d.set.holds key then (.ok (), d)
  else
    let slot := numbering d.asked key.globalId
    let d := { d with asked := d.asked ++ [key.globalId] }
    let (outcome, set) := d.set.add key true slot
    (outcome, { d with set })

/-- Take over an announcement for one of our roles: hold the key, and link to the sender and to
every other knower. -/
def adopt (own sender : Nat) (numbering : Numbering G) (a : Announcement G A) (role : A)
    (d : Discovery G A) : Except Fault Unit × Discovery G A :=
  let link (remoteRole : A) : Link G A := ⟨a.key.globalId, role, remoteRole⟩
  match hold numbering ⟨a.key.globalId, role⟩ d with
  | (.error f, d) => (.error f, d)
  | (.ok (), d) =>
    (.ok (), (a.others own).foldl (fun d knower => d.record knower.1 (link knower.2))
      (d.record sender (link a.key.role)))

/-- Take over every announcement of a message for every role we are said to hold. An announcement
without such a role has no effect. -/
def adoptAll (own sender : Nat) (numbering : Numbering G)
    (announcements : List (Announcement G A)) :
    Discovery G A → Except Fault Unit × Discovery G A :=
  forEach (fun a => forEach (adopt own sender numbering a) (a.rolesOf own)) announcements

end Discovery

end HaloIndex
