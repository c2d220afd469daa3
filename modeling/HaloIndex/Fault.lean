import HaloIndex.Lifecycle

namespace HaloIndex

inductive Fault where
  | wrongPhase (operation : String) (expected found : Phase)
  /-- A (global, role) key was added twice. -/
  | duplicateKey (key : String)
  | outOfRange (position length : Nat)
  /-- The table was not built from one set that is both source and destination. -/
  | sharedLinksRequired
  | badSettings (detail : String)
  /-- An edit did not keep its list ascending. -/
  | insertOutOfOrder (neighbour : Nat) (globalId : String)
  /-- The table was aligned with other revisions of the two sets. -/
  | staleTable (expectedSource : Nat) (foundSource : Option Nat)
      (expectedDest : Nat) (foundDest : Option Nat)
  | unknownGlobal (globalId : String)
  /-- A link names a local key that is not held. -/
  | danglingLink (neighbour : Nat) (globalId : String)
  | communication (rank : Nat) (detail : String)
  /-- A probe or receive waited for longer than allowed. -/
  | timedOut (waited : Nat)
  | undecodable (detail : String)
  | unknownRole (code : UInt8)
  | unregistered (typeName : String)
  | brokenInvariant (detail : String)
  /-- The call does not come back: it stops the program. -/
  | panicked (detail : String)
  deriving DecidableEq

namespace Fault

def revisionText : Option Nat → String
  | some n => s!"Some({n})"
  | none => "None"

def message : Fault → String
  | wrongPhase operation expected found =>
    s!"`{operation}` requires the index set to be {expected.text}, but it is {found.text}"
  | duplicateKey key => s!"index {key} is already present with the same attribute"
  | outOfRange position length =>
    s!"position {position} is out of range for an index set of length {length}"
  | sharedLinksRequired =>
    "operation requires a remote index table built with source == destination"
  | badSettings detail => s!"invalid exchange configuration: {detail}"
  | insertOutOfOrder neighbour globalId =>
    s!"remote index {globalId} inserted out of order for neighbour {neighbour}"
  | staleTable expectedSource foundSource expectedDest foundDest =>
    s!"remote index table is stale (source seq {revisionText foundSource} vs {expectedSource}" ++
      s!", destination seq {revisionText foundDest} vs {expectedDest}); rebuild or sync first"
  | unknownGlobal globalId => s!"global index {globalId} is not present in the index set"
  | danglingLink neighbour globalId =>
    s!"remote index for global {globalId} from neighbour {neighbour} has no local pair"
  | communication rank detail => s!"communication error with rank {rank}: {detail}"
  | timedOut waited => s!"communication timed out after {waited} ms"
  | undecodable detail => s!"wire decode error: {detail}"
  | unknownRole code => s!"unknown attribute code {code.toNat} on the wire"
  | unregistered typeName => s!"wire type `{typeName}` is not registered"
  | brokenInvariant detail => s!"invariant violated: {detail}"
  | panicked detail => detail

end Fault

/-- Whether a build looks for its own defects. A plain one lets a sum that does not fit a machine
word start over at zero; a checked one stops there, and where an invariant does not hold. -/
inductive Build where
  | plain
  | checked

/-- What a build makes of an invariant. -/
def Build.assert (context : String) (invariant : Except Fault Unit) : Build → Except Fault Unit
  | .plain => .ok ()
  | .checked => invariant.mapError fun f => .panicked s!"[invariants] {context}: {f.message}"

/-- Change a state if a check passes, and else leave it as it is. -/
def afterCheck {σ α : Type} (check : Except Fault Unit) (s : σ) (change : Except Fault α × σ) :
    Except Fault α × σ :=
  match check with
  | .error f => (.error f, s)
  | .ok () => change

theorem ok_of_afterCheck {σ α : Type} {check : Except Fault Unit} {s s' : σ}
    {change : Except Fault α × σ} {a : α} (h : afterCheck check s change = (.ok a, s')) :
    check = .ok () ∧ change = (.ok a, s') := by
  cases check with
  | error f => cases h
  | ok => exact ⟨rfl, h⟩

end HaloIndex
