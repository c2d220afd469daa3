namespace HaloIndex

/-- A type of roles: the byte each role travels as, and how it is written. -/
class Role (A : Type) where
  code : A → UInt8
  ofCode? : UInt8 → Option A
  text : A → String
  label : A → String

/-- Codes identify roles, and a role is read back from its own code only. -/
class LawfulRole (A : Type) [Role A] : Prop where
  ofCode?_eq_some_iff (c : UInt8) (a : A) : Role.ofCode? c = some a ↔ Role.code a = c

abbrev RolePredicate (A : Type) := A → Bool

instance : Role UInt8 where
  code := id
  ofCode? := some
  text a := toString a.toNat
  label a := toString a.toNat

instance : LawfulRole UInt8 where
  ofCode?_eq_some_iff c a := by
    change some c = some a ↔ a = c
    simp [eq_comm]

/-- Roles of a mesh entity in a domain decomposition, most authoritative first. -/
inductive MeshRole where
  | owner
  | border
  | overlap
  | ghost
  deriving DecidableEq

namespace MeshRole

def code : MeshRole → UInt8
  | owner => 0
  | border => 1
  | overlap => 2
  | ghost => 3

def ofCode? : UInt8 → Option MeshRole
  | 0 => some owner
  | 1 => some border
  | 2 => some overlap
  | 3 => some ghost
  | _ => none

def text : MeshRole → String
  | owner => "Owner"
  | border => "Border"
  | overlap => "Overlap"
  | ghost => "Ghost"

def label : MeshRole → String
  | owner => "owner"
  | border => "border"
  | overlap => "overlap"
  | ghost => "ghost"

def all : List MeshRole := [owner, border, overlap, ghost]

def ofText? (name : String) : Option MeshRole :=
  all.find? (·.text == name)

instance : LT MeshRole := ⟨fun a b => a.code < b.code⟩

instance : DecidableLT MeshRole := fun a b => inferInstanceAs (Decidable (a.code < b.code))

instance : Role MeshRole := ⟨code, ofCode?, text, label⟩

theorem ofCode?_code (a : MeshRole) : ofCode? a.code = some a := by
  cases a <;> rfl

theorem code_eq_of_ofCode? {c : UInt8} {a : MeshRole} (h : ofCode? c = some a) : a.code = c := by
  unfold ofCode? at h
  split at h <;> cases h <;> rfl

instance : LawfulRole MeshRole where
  ofCode?_eq_some_iff _ a :=
    ⟨code_eq_of_ofCode?, fun h => h ▸ ofCode?_code a⟩

end MeshRole

end HaloIndex
