import HaloIndex.Role
import HaloIndex.Wire.Packer

namespace HaloIndex

structure Cursor where
  position : Nat
  rest : List UInt8
  deriving DecidableEq

namespace Cursor

def start (buffer : List UInt8) : Cursor := ⟨0, buffer⟩

def remaining (c : Cursor) : Nat := c.rest.length

def skip (c : Cursor) (n : Nat) : Cursor := ⟨c.position + n, c.rest.drop n⟩

end Cursor

/-- A step of unpacking: it ends with a value or a fault, at a place in the buffer. -/
abbrev Unpack := ExceptT Fault (StateM Cursor)

namespace Unpack

/-- Take a value of a registered type. Nothing is consumed by a failure. -/
def scalar (registry : Registry) (α : Type) [Scalar α] : Unpack α := fun c =>
  match registry.descriptor α with
  | .error f => (.error f, c)
  | .ok d =>
    let remaining := c.remaining
    let position := c.position
    let width := d.width
    let name := Scalar.name α
    if width ≤ remaining then (.ok (Scalar.ofBytes (c.rest.take width)), c.skip width)
    else
      let detail :=
        s!"buffer too short: need {width} bytes for {name} at offset {position}, have {remaining}"
      (.error (.undecodable detail), c)

/-- Take a header count. A negative one is refused after its bytes have been consumed. -/
def count (registry : Registry) : Unpack Nat := do
  let n ← scalar registry Int32
  let shown := Scalar.text n
  if n < 0 then throw (.undecodable s!"negative count {shown}")
  return n.toInt.toNat

def role (registry : Registry) (A : Type) [Role A] : Unpack A := do
  let code ← scalar registry UInt8
  match Role.ofCode? code with
  | some a => return a
  | none => throw (.unknownRole code)

def times {α : Type} (item : Unpack α) : Nat → Unpack (List α)
  | 0 => return []
  | n + 1 => do
    let first ← item
    let rest ← times item n
    return first :: rest

def finish : Unpack Unit := fun c =>
  let remaining := c.remaining
  if remaining = 0 then (.ok (), c)
  else (.error (.undecodable s!"{remaining} trailing bytes after message"), c)

/-- Read a whole buffer: what is left over is a fault. -/
def whole {α : Type} (item : Unpack α) (buffer : List UInt8) : Except Fault α :=
  ((do let a ← item; finish; return a : Unpack α).run.run (.start buffer)).1

end Unpack

end HaloIndex
