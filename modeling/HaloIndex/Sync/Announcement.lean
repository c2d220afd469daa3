import HaloIndex.Link.Lockstep
import HaloIndex.Wire.Unpacker

namespace HaloIndex

/-- A key of the sender, with the ranks that are known to hold its identifier and their roles. -/
structure Announcement (G A : Type) where
  key : Key G A
  knowers : List (Nat × A)
  deriving DecidableEq

namespace Announcement

variable {G A : Type}

def rolesOf (rank : Nat) (a : Announcement G A) : List A :=
  (a.knowers.filter (·.1 == rank)).map (·.2)

def others (rank : Nat) (a : Announcement G A) : List (Nat × A) := a.knowers.filter (·.1 != rank)

section Collecting

variable [LT G] [LT A] [DecidableEq G] [DecidableEq A] [DecidableLT G] [DecidableLT A]

/-- Go through the holdings in key order, and through the links of all ranks in step with them,
until no rank has links left. A holding with links is announced once to each rank that is to be
told something. -/
def announceAll : List (Holding G A) → Lockstep G A → NatMap (List (Announcement G A)) →
    NatMap (List (Announcement G A))
  | [], _, told => told
  | h :: rest, lanes, told =>
    if lanes.isEmpty then told
    else
      let lanes := lanes.advance ⟨h.globalId, some h.role⟩
      let knowers := lanes.current.map fun (rank, link) => (rank, link.remoteRole)
      if knowers.isEmpty then announceAll rest lanes told
      else
        -- The links come rank by rank, so a rank with several of them stands several times in a
        -- row.
        let ranks := (knowers.map (·.1)).eraseReps
        announceAll rest lanes.bump
          (ranks.foldl (fun told rank => told.adjust rank (· ++ [⟨h.key, knowers⟩])) told)

def outgoing (own : Nat) (set : IndexSet G A) (links : NatMap (List (Link G A))) :
    NatMap (List (Announcement G A)) :=
  announceAll set.holdings (.ofLists links.entries) ((links.erase own).map fun _ => [])

end Collecting

variable [Scalar G] [Role A]

def encodeKnower (registry : Registry) (knower : Nat × A) : Except Fault (List UInt8) := do
  let rank ← registry.packedCount knower.1
  let role ← registry.packed (Role.code knower.2)
  return rank ++ role

def encodeOne (registry : Registry) (a : Announcement G A) : Except Fault (List UInt8) := do
  let globalId ← registry.packed a.key.globalId
  let role ← registry.packed (Role.code a.key.role)
  let count ← registry.packedCount a.knowers.length
  let knowers ← Registry.packedEach (encodeKnower registry) a.knowers
  return globalId ++ (role ++ (count ++ knowers))

/-- The length of a message, provided that the types in it are registered. -/
def encodedLength (registry : Registry) (announcements : List (Announcement G A)) :
    Except Fault Nat := do
  let count ← registry.descriptor Int32
  let globalId ← registry.descriptor G
  let role ← registry.descriptor UInt8
  let record := globalId.width + role.width + count.width
  let knower := count.width + role.width
  return count.width + record * announcements.length +
    knower * (announcements.flatMap (·.knowers)).length

/-- The message with these announcements. Every type in it must be registered, whatever the
counts. -/
def encode (registry : Registry) (announcements : List (Announcement G A)) :
    Except Fault (List UInt8) := do
  let _ ← encodedLength registry announcements
  let count ← registry.packedCount announcements.length
  let records ← Registry.packedEach (encodeOne registry) announcements
  return count ++ records

def unpackKnower (registry : Registry) : Unpack (Nat × A) := do
  let rank ← Unpack.count registry
  let role ← Unpack.role registry A
  return (rank, role)

def unpackOne (registry : Registry) : Unpack (Announcement G A) := do
  let globalId ← Unpack.scalar registry G
  let role ← Unpack.role registry A
  let count ← Unpack.count registry
  let knowers ← Unpack.times (unpackKnower registry) count
  return ⟨⟨globalId, role⟩, knowers⟩

def decode (registry : Registry) (buffer : List UInt8) :
    Except Fault (List (Announcement G A)) :=
  Unpack.whole (do Unpack.times (unpackOne registry) (← Unpack.count registry)) buffer

end Announcement

end HaloIndex
