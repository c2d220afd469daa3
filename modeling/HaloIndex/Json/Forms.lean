import HaloIndex.Json.Record
import HaloIndex.Placement
import HaloIndex.Role.Set
import HaloIndex.Settings

namespace HaloIndex

open Json

namespace Tag

def json (t : Tag) : String := toString t.toNat

def ofValue? (v : Value) : Option Tag := (v.natBelow? UInt16.size).map UInt16.ofNat

end Tag

namespace Strategy

def json (s : Strategy) : String := quoted s.text

def ofValue? : Value → Option Strategy := Value.choice? all text

end Strategy

namespace TableSettings

def json (c : TableSettings) : String :=
  objectText
    [("strategy", c.strategy.json), ("include_self", toString c.includeSelf),
      ("rebuild_tag", Tag.json c.rebuildTag), ("allow_ring", toString c.allowRing),
      ("ring_warn_threshold", toString c.ringWarnThreshold)]

/-- Settings that are not given have their defaults. -/
def ofValue? (v : Value) : Option TableSettings := do
  let [strategy, includeSelf, rebuildTag, allowRing, ringWarnThreshold] ← v.fields?
    ["strategy", "include_self", "rebuild_tag", "allow_ring", "ring_warn_threshold"] | none
  let fallback : TableSettings := {}
  return {
    strategy := ← optional fallback.strategy Strategy.ofValue? strategy
    includeSelf := ← optional fallback.includeSelf Value.bool? includeSelf
    rebuildTag := ← optional fallback.rebuildTag Tag.ofValue? rebuildTag
    allowRing := ← optional fallback.allowRing Value.bool? allowRing
    ringWarnThreshold := ← optional fallback.ringWarnThreshold Value.nat? ringWarnThreshold }

end TableSettings

namespace SyncSettings

def json (c : SyncSettings) : String := objectText [("tag", Tag.json c.tag)]

def ofValue? (v : Value) : Option SyncSettings := do
  let [tag] ← v.fields? ["tag"] | none
  return { tag := ← optional Tag.sync Tag.ofValue? tag }

end SyncSettings

namespace Phase

def json (p : Phase) : String := quoted p.text

def ofValue? : Value → Option Phase := Value.choice? [ground, resize] text

end Phase

namespace Lifecycle

def json (l : Lifecycle) : String := quoted l.text

def ofValue? : Value → Option Lifecycle := Value.choice? [valid, deleted] text

end Lifecycle

namespace MeshRole

def json (r : MeshRole) : String := quoted r.text

def ofValue? : Value → Option MeshRole := Value.choice? all text

end MeshRole

namespace LocalSlot

def json (s : LocalSlot) : String :=
  objectText [("local", toString s.slot), ("state", s.state.json)]

def ofValue? (v : Value) : Option LocalSlot := do
  let [slot, state] ← v.fields? ["local", "state"] | none
  return ⟨← required Value.nat? slot, ← required Lifecycle.ofValue? state⟩

end LocalSlot

namespace Placement

variable {A : Type}

def json (roleJson : A → String) (p : Placement A) : String :=
  objectText
    [("index", p.index.json), ("attribute", roleJson p.role), ("public", toString p.isPublic)]

def ofValue? (role? : Value → Option A) (v : Value) : Option (Placement A) := do
  let [index, role, isPublic] ← v.fields? ["index", "attribute", "public"] | none
  return ⟨← required LocalSlot.ofValue? index, ← required role? role,
    ← required Value.bool? isPublic⟩

end Placement

namespace RoleSet

variable {A : Type}

def json (s : RoleSet A) : String :=
  objectText [("bits", arrayText (s.words.map toString))]

def ofValue? (v : Value) : Option (RoleSet A) := do
  let [bits] ← v.fields? ["bits"] | none
  let words ← (← required (Value.items? 4) bits).mapM Value.nat?
  return ofWords words

end RoleSet

end HaloIndex
