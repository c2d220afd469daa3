import HaloIndex.Transport.Program
import HaloIndex.Transport.Station

namespace HaloIndex

namespace Station

def reduced (sender : Nat) (payload : List UInt8) : Except Fault UInt64 :=
  let length := payload.length
  if length = Scalar.width UInt64 then .ok (Scalar.ofBytes payload)
  else .error (.communication sender s!"collective payload of {length} bytes, expected 8")

def gather (combine : UInt64 → UInt64 → UInt64) :
    (value : UInt64) → (senders : List Nat) → Talk UInt64
  | value, [] => return value
  | value, sender :: rest => do
    let payload ← Talk.receive sender Tag.collective
    let other ← Talk.ofExcept (reduced sender payload)
    gather combine (combine value other) rest

def spread (value : UInt64) : (receivers : List Nat) → Talk Unit
  | [] => return
  | receiver :: rest => do
    Talk.send receiver Tag.collective (Scalar.bytes value)
    spread value rest

/-- Fold the values of all ranks; every rank ends with the result. -/
def reduce (s : Station) (combine : UInt64 → UInt64 → UInt64) (value : UInt64) : Talk UInt64 :=
  let others := List.range' 1 (s.size - 1)
  if s.size ≤ 1 then return value
  else if s.rank = 0 then do
    let total ← gather combine value others
    spread total others
    return total
  else do
    Talk.send 0 Tag.collective (Scalar.bytes value)
    Talk.ofExcept (reduced 0 (← Talk.receive 0 Tag.collective))

def reduceMax (s : Station) (value : UInt64) : Talk UInt64 := s.reduce max value

def reduceAnd (s : Station) (value : Bool) : Talk Bool := do
  let least ← s.reduce min (if value then 1 else 0)
  return least != 0

def barrier (s : Station) : Talk Unit := do
  let _ ← s.reduceMax 0
  return

end Station

end HaloIndex
