import HaloIndex.Sync.Discovery
import HaloIndex.Transport.Exchange
import HaloIndex.Transport.Station

namespace HaloIndex

/-- How a sync ended: its outcome, the set and the table afterwards, and the identifiers for
which a slot was asked. -/
structure SyncResult (G A : Type) where
  outcome : Except Fault Unit
  set : IndexSet G A
  table : LinkTable G A
  asked : List G := []

namespace LinkTable

variable {G A : Type} [Scalar G] [LT G] [LT A] [DecidableEq G] [DecidableEq A] [DecidableLT G]
  [DecidableLT A]

def firstDangling (t : LinkTable G A) (set : IndexSet G A) : Option (Nat × Link G A) :=
  t.links.entries.findSome? fun e =>
    (e.2.send.find? fun l => !(set.positionOf l.localKey).isSome).map fun l => (e.1, l)

def checkSyncable (t : LinkTable G A) (set : IndexSet G A) : Except Fault Unit := do
  set.require "sync" .ground
  if !t.isShared then throw .sharedLinksRequired
  t.checkSynced set set
  match t.firstDangling set with
  | some (rank, link) => throw (.danglingLink rank (Scalar.text link.globalId))
  | none => return

variable [Role A]

def takeAnnouncements (s : Station) (tag : Tag) (numbering : Numbering G) (neighbour : Nat)
    (d : Discovery G A) : Program (Except Fault Unit × Discovery G A) := do
  match ← (Talk.receive neighbour tag).run with
  | .error f => return (.error f, d)
  | .ok payload =>
    match Announcement.decode s.registry payload with
    | .error f => return (.error f, d)
    | .ok announcements => return d.adoptAll s.rank neighbour numbering announcements

/-- Exchange announcements with every rank that has an entry, and apply what they say. -/
def syncBy (build : Build) (t : LinkTable G A) (s : Station) (set : IndexSet G A)
    (settings : SyncSettings) (numbering : Numbering G) : Program (SyncResult G A) := do
  match afterCheck (t.checkSyncable set) set set.beginResize with
  | (.error f, set) => return ⟨.error f, set, t, []⟩
  | (.ok (), opened) =>
    let known := t.links.map Links.send
    let outgoing := (Announcement.outgoing s.rank set known).entries.map fun e =>
      (e.1, Announcement.encode s.registry e.2)
    let (outcome, found) ← Exchange.round settings.tag outgoing
      (takeAnnouncements s settings.tag numbering) ⟨opened, known, []⟩
    match outcome with
    | .error f => return ⟨.error f, found.set.abortResize, t.clear, found.asked⟩
    | .ok () =>
      match found.set.commitBy build with
      | (.error f, set) => return ⟨.error f, set, t, found.asked⟩
      | (.ok (), set) =>
        let table := { t with links := found.links.map .shared, isShared := true }.align set set
        return ⟨build.assert "IndicesSyncer::sync" table.validate, set, table, found.asked⟩

def sync (t : LinkTable G A) (s : Station) (set : IndexSet G A) (settings : SyncSettings)
    (numbering : Numbering G) : Program (SyncResult G A) :=
  t.syncBy .plain s set settings numbering

end LinkTable

end HaloIndex
