import HaloIndex.Link.Table
import HaloIndex.Wire.Unpacker

namespace HaloIndex

/-- The published keys of a rank. Without keys of a destination the source set plays both
roles. -/
structure Publication (G A : Type) where
  source : List (Key G A)
  dest : Option (List (Key G A))
  deriving DecidableEq

namespace Publication

variable {G A : Type}

def destKeys (p : Publication G A) : List (Key G A) := p.dest.getD p.source

/-- The keys a set makes known: those of public holdings, or all of them. -/
def keysOf (set : IndexSet G A) (ignorePublic : Bool) : List (Key G A) :=
  (set.holdings.filter fun h => ignorePublic || h.isPublic).map Holding.key

def ofEndpoints (ends : Endpoints G A) (ignorePublic : Bool) : Publication G A :=
  match ends with
  | .one set => ⟨keysOf set ignorePublic, none⟩
  | .two source dest => ⟨keysOf source ignorePublic, some (keysOf dest ignorePublic)⟩

variable [Scalar G] [Role A]

def encodeKey (registry : Registry) (k : Key G A) : Except Fault (List UInt8) := do
  let globalId ← registry.packed k.globalId
  let role ← registry.packed (Role.code k.role)
  return globalId ++ role

/-- The message that publishes these keys. Every type in it must be registered, whatever the
counts. -/
def encode (registry : Registry) (p : Publication G A) : Except Fault (List UInt8) := do
  let _ ← registry.descriptor G
  let _ ← registry.descriptor UInt8
  let _ ← registry.descriptor Bool
  let _ ← registry.descriptor Int32
  let two ← registry.packed p.dest.isSome
  let sourceCount ← registry.packedCount p.source.length
  let destCount ← registry.packedCount (p.dest.getD []).length
  let keys ← Registry.packedEach (encodeKey registry) (p.source ++ p.dest.getD [])
  return two ++ (sourceCount ++ (destCount ++ keys))

def unpackKey (registry : Registry) : Unpack (Key G A) := do
  let globalId ← Unpack.scalar registry G
  let role ← Unpack.role registry A
  return ⟨globalId, role⟩

variable [LT G] [LT A] [DecidableEq G] [DecidableLT G] [DecidableLT A]

def sortedKeys (keys : List (Key G A)) : List (Key G A) :=
  keys.mergeSort fun a b => !decide (b < a)

/-- Take a publication. The keys of a destination are only there if the flag says so, whatever
their count. -/
def unpack (registry : Registry) : Unpack (Publication G A) := do
  let two ← Unpack.scalar registry Bool
  let sourceCount ← Unpack.count registry
  let destCount ← Unpack.count registry
  let source ← Unpack.times (unpackKey registry) sourceCount
  let dest ← if two then do
      let keys ← Unpack.times (unpackKey registry) destCount
      pure (some (sortedKeys keys))
    else pure none
  return ⟨sortedKeys source, dest⟩

def decode (registry : Registry) (buffer : List UInt8) : Except Fault (Publication G A) :=
  Unpack.whole (unpack registry) buffer

end Publication

end HaloIndex
