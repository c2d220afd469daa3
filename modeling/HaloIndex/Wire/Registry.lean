import HaloIndex.Fault
import HaloIndex.Wire.Scalar

namespace HaloIndex

structure Descriptor where
  name : String
  width : Nat
  deriving DecidableEq

/-- The registered scalar types, each under its path. -/
structure Registry where
  types : List (String × Descriptor)
  deriving DecidableEq

namespace Registry

def empty : Registry := ⟨[]⟩

def contains (r : Registry) (α : Type) [Scalar α] : Bool :=
  r.types.any (·.1 == Scalar.path α)

/-- Add a type; a type that is already registered keeps its entry. -/
def register (r : Registry) (α : Type) [Scalar α] : Registry :=
  if r.contains α then r else ⟨r.types ++ [(Scalar.path α, ⟨Scalar.name α, Scalar.width α⟩)]⟩

def basic : Registry :=
  (((((((empty.register Bool).register UInt8).register Int32).register UInt32).register
    Int64).register
    UInt64).register Extent)

def descriptor (r : Registry) (α : Type) [Scalar α] : Except Fault Descriptor :=
  match r.types.find? (·.1 == Scalar.path α) with
  | some entry => .ok entry.2
  | none => .error (.unregistered (Scalar.name α))

/-- Bytes needed for `count` values, in 64-bit arithmetic. -/
def packSize (r : Registry) (α : Type) [Scalar α] (count : Nat) : Except Fault Nat :=
  (r.descriptor α).map fun d => d.width * count % UInt64.size

end Registry

end HaloIndex
