import HaloIndex.Wire.Registry

namespace HaloIndex

namespace Registry

def packed {α : Type} [Scalar α] (r : Registry) (a : α) : Except Fault (List UInt8) :=
  match r.descriptor α with
  | .ok _ => .ok (Scalar.bytes a)
  | .error f => .error f

def maxCount : Nat := 2147483647

/-- The packed form of a length: the signed 32-bit count of every message header. -/
def packedCount (r : Registry) (n : Nat) : Except Fault (List UInt8) :=
  if n ≤ maxCount then r.packed (Int32.ofNat n)
  else .error (.undecodable s!"count {n} does not fit in i32")

def packedEach {α : Type} (item : α → Except Fault (List UInt8)) :
    List α → Except Fault (List UInt8)
  | [] => .ok []
  | a :: rest => do
    let first ← item a
    let others ← packedEach item rest
    return first ++ others

end Registry

structure Packer where
  registry : Registry
  bytes : List UInt8 := []

namespace Packer

/-- Append a packed form; a refusal leaves the packer as it was. -/
def append (p : Packer) : Except Fault (List UInt8) → Except Fault Unit × Packer
  | .ok more => (.ok (), { p with bytes := p.bytes ++ more })
  | .error f => (.error f, p)

def pack {α : Type} [Scalar α] (p : Packer) (a : α) : Except Fault Unit × Packer :=
  p.append (p.registry.packed a)

def packCount (p : Packer) (n : Nat) : Except Fault Unit × Packer :=
  p.append (p.registry.packedCount n)

end Packer

end HaloIndex
