import HaloIndex.Fault
import HaloIndex.IndexSet.Query

namespace HaloIndex

/-- A global identifier held here under one role and elsewhere under another. -/
structure Link (G A : Type) where
  globalId : G
  localRole : A
  remoteRole : A
  deriving DecidableEq

namespace Link

variable {G A : Type}

def localKey (l : Link G A) : Key G A := ⟨l.globalId, l.localRole⟩

def text [Scalar G] [Role A] (l : Link G A) : String :=
  let globalId := Scalar.text l.globalId
  let localRole := Role.text l.localRole
  let remoteRole := Role.text l.remoteRole
  s!"[global={globalId}, local attr={localRole}, remote attr={remoteRole}]"

variable [LT G] [LT A]

/-- Links are ordered by the local key and then by the role on the other rank. -/
instance : LT (Link G A) :=
  ⟨fun a b => a.localKey < b.localKey ∨ a.localKey = b.localKey ∧ a.remoteRole < b.remoteRole⟩

theorem lt_iff {a b : Link G A} :
    a < b ↔ a.localKey < b.localKey ∨ a.localKey = b.localKey ∧ a.remoteRole < b.remoteRole :=
  Iff.rfl

variable [DecidableEq G] [DecidableEq A] [DecidableLT G] [DecidableLT A]

instance : DecidableLT (Link G A) := fun a b =>
  inferInstanceAs
    (Decidable (a.localKey < b.localKey ∨ a.localKey = b.localKey ∧ a.remoteRole < b.remoteRole))

def sorted (links : List (Link G A)) : List (Link G A) :=
  links.mergeSort fun a b => !decide (b < a)

def holding [Scalar G] [Role A] (l : Link G A) (set : IndexSet G A) :
    Except Fault (Holding G A) := do
  match ← set.findKey l.localKey with
  | some h => return h
  | none => throw (.unknownGlobal l.localKey.text)

end Link

/-- The links to one rank. With one set for both directions they share a list; otherwise links
along which we send are kept apart from links along which we receive. -/
inductive Links (G A : Type) where
  | shared (links : List (Link G A))
  | split (send receive : List (Link G A))
  deriving DecidableEq

namespace Links

variable {G A : Type}

def send : Links G A → List (Link G A)
  | shared links => links
  | split send _ => send

def receive : Links G A → List (Link G A)
  | shared links => links
  | split _ receive => receive

def isShared : Links G A → Bool
  | shared _ => true
  | split _ _ => false

def isEmpty : Links G A → Bool
  | shared links => links.isEmpty
  | split send receive => send.isEmpty && receive.isEmpty

/-- Keep the links that pass, each direction with a test of its own; a shared list takes the test
for sending. -/
def filter (sends receives : Link G A → Bool) : Links G A → Links G A
  | shared links => shared (links.filter sends)
  | split send receive => split (send.filter sends) (receive.filter receives)

def toList : Links G A → List (Link G A)
  | shared links => links
  | split send receive => send ++ receive

end Links

end HaloIndex
