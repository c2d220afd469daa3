import HaloIndex.Wire.Registry

namespace HaloIndex

/-- The place of a rank: its number, the number of all ranks, and the scalars it is prepared to
pack. -/
structure Station where
  rank : Nat
  size : Nat
  registry : Registry

end HaloIndex
