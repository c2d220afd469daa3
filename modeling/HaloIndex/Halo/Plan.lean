import HaloIndex.NatMap

namespace HaloIndex

inductive Direction where
  | send
  | receive
  deriving DecidableEq

structure SlotLists where
  send : List Nat := []
  receive : List Nat := []
  deriving DecidableEq

inductive PlanStep where
  /-- Room for a number of slots is announced. -/
  | reserve (rank : Nat) (direction : Direction) (count : Nat)
  | add (rank : Nat) (direction : Direction) (slot : Nat)
  deriving DecidableEq

structure HaloPlan where
  lists : NatMap SlotLists := .empty
  deriving DecidableEq

namespace SlotLists

def isEmpty (l : SlotLists) : Bool := l.send.isEmpty && l.receive.isEmpty

def append (l : SlotLists) : Direction → Nat → SlotLists
  | .send, slot => { l with send := l.send ++ [slot] }
  | .receive, slot => { l with receive := l.receive ++ [slot] }

end SlotLists

namespace HaloPlan

def empty : HaloPlan := {}

/-- Follow one step. Announced room only makes sure that the rank has an entry. -/
def apply (p : HaloPlan) : PlanStep → HaloPlan
  | .reserve rank _ _ => ⟨p.lists.modify rank {} id⟩
  | .add rank direction slot => ⟨p.lists.modify rank {} (·.append direction slot)⟩

def applyAll (p : HaloPlan) (steps : List PlanStep) : HaloPlan := steps.foldl apply p

def strip (p : HaloPlan) : HaloPlan := ⟨p.lists.filter fun _ l => !l.isEmpty⟩

def text (p : HaloPlan) : String :=
  let listed (slots : List Nat) : String := "[" ++ ", ".intercalate (slots.map toString) ++ "]"
  String.join <| p.lists.entries.map fun (rank, l) =>
    let send := listed l.send
    let receive := listed l.receive
    s!"{rank}: send {send} receive {receive}\n"

end HaloPlan

end HaloIndex
