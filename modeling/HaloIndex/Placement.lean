import HaloIndex.Lifecycle
import HaloIndex.Role

namespace HaloIndex

structure LocalSlot where
  slot : Nat
  state : Lifecycle := .valid
  deriving DecidableEq

def LocalSlot.isDeleted (s : LocalSlot) : Bool := s.state == .deleted

/-- The next slot. Slots are machine words, so slot zero comes after the last of them. -/
def slotAfter (slot : Nat) : Nat := (slot + 1) % UInt64.size

/-- A local slot with the role it is held in. Only public placements are published to other
ranks. -/
structure Placement (A : Type) where
  index : LocalSlot
  role : A
  isPublic : Bool
  deriving DecidableEq

namespace Placement

variable {A : Type}

def valid (slot : Nat) (role : A) (isPublic : Bool) : Placement A :=
  ⟨⟨slot, .valid⟩, role, isPublic⟩

def slot (p : Placement A) : Nat := p.index.slot

def isDeleted (p : Placement A) : Bool := p.index.isDeleted

def withSlot (p : Placement A) (slot : Nat) : Placement A := { p with index.slot := slot }

def withState (p : Placement A) (state : Lifecycle) : Placement A :=
  { p with index.state := state }

/-- Whether two placements agree in slot, role and publicity; the life stage is left out. -/
def agrees [DecidableEq A] (p q : Placement A) : Bool :=
  p.slot == q.slot && decide (p.role = q.role) && p.isPublic == q.isPublic

def countDistinct [DecidableEq A] : List (Placement A) → Nat
  | [] => 0
  | p :: rest => (if rest.any p.agrees then 0 else 1) + countDistinct rest

def text [Role A] (p : Placement A) : String :=
  let slot := p.slot
  let role := Role.text p.role
  let isPublic := p.isPublic
  s!"\x7blocal={slot}, attr={role}, public={isPublic}\x7d"

end Placement

end HaloIndex
