import HaloIndex.Placement
import HaloIndex.Wire.Scalar

namespace HaloIndex

structure Key (G A : Type) where
  globalId : G
  role : A
  deriving DecidableEq

namespace Key

variable {G A : Type} [LT G] [LT A]

instance : LT (Key G A) :=
  ⟨fun a b => a.globalId < b.globalId ∨ a.globalId = b.globalId ∧ a.role < b.role⟩

theorem lt_iff {a b : Key G A} :
    a < b ↔ a.globalId < b.globalId ∨ a.globalId = b.globalId ∧ a.role < b.role :=
  Iff.rfl

instance [DecidableEq G] [DecidableLT G] [DecidableLT A] : DecidableLT (Key G A) := fun a b =>
  inferInstanceAs
    (Decidable (a.globalId < b.globalId ∨ a.globalId = b.globalId ∧ a.role < b.role))

end Key

def Key.text {G A : Type} [Scalar G] [Role A] (k : Key G A) : String :=
  let globalId := Scalar.text k.globalId
  let role := Role.text k.role
  s!"({globalId}, {role})"

structure Holding (G A : Type) where
  globalId : G
  placement : Placement A
  deriving DecidableEq

namespace Holding

variable {G A : Type}

def role (h : Holding G A) : A := h.placement.role

def slot (h : Holding G A) : Nat := h.placement.slot

def isPublic (h : Holding G A) : Bool := h.placement.isPublic

def isDeleted (h : Holding G A) : Bool := h.placement.isDeleted

def key (h : Holding G A) : Key G A := ⟨h.globalId, h.role⟩

def withSlot (h : Holding G A) (slot : Nat) : Holding G A :=
  { h with placement := h.placement.withSlot slot }

def withState (h : Holding G A) (state : Lifecycle) : Holding G A :=
  { h with placement := h.placement.withState state }

@[simp]
theorem key_withSlot (h : Holding G A) (slot : Nat) : (h.withSlot slot).key = h.key := rfl

@[simp]
theorem key_withState (h : Holding G A) (state : Lifecycle) :
    (h.withState state).key = h.key := rfl

def text [Scalar G] [Role A] (h : Holding G A) : String :=
  let globalId := Scalar.text h.globalId
  let placement := h.placement.text
  s!"\x7bglobal={globalId}, local={placement}\x7d"

end Holding

end HaloIndex
