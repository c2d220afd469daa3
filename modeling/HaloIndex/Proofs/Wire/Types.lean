import HaloIndex.Proofs.Wire.Reading

namespace HaloIndex

/-- A type that can be packed and is read back as it was. -/
structure WireType : Type 1 where
  carrier : Type
  [scalar : Scalar carrier]
  [lawful : LawfulScalar carrier]

attribute [instance] WireType.scalar WireType.lawful

namespace WireType

def path (t : WireType) : String := Scalar.path t.carrier

def descriptor (t : WireType) : Descriptor := ⟨Scalar.name t.carrier, Scalar.width t.carrier⟩

def int32 : WireType := ⟨Int32⟩

/-- The types that are registered from the start. -/
def builtin : List WireType := [⟨Bool⟩, ⟨UInt8⟩, int32, ⟨UInt32⟩, ⟨Int64⟩, ⟨UInt64⟩, ⟨Extent⟩]

/-- None of these types stands under its path with another name or width. -/
def OwnsPath (t : WireType) (types : List WireType) : Prop :=
  ∀ s ∈ types, s.path = t.path → s.descriptor = t.descriptor

instance (t : WireType) (types : List WireType) : Decidable (t.OwnsPath types) :=
  inferInstanceAs (Decidable (∀ s ∈ types, s.path = t.path → s.descriptor = t.descriptor))

def IsAmong (t : WireType) (types : List WireType) : Prop := ∃ s ∈ types, s.path = t.path

instance (t : WireType) (types : List WireType) : Decidable (t.IsAmong types) :=
  inferInstanceAs (Decidable (∃ s ∈ types, s.path = t.path))

def refusal? (t : WireType) (types : List WireType) : Option Fault :=
  if t.IsAmong types then none else some (.unregistered t.descriptor.name)

theorem refusal?_eq_none {t : WireType} {types : List WireType} :
    t.refusal? types = none ↔ t.IsAmong types := by
  by_cases h : t.IsAmong types
  · exact iff_of_true (if_pos h) h
  · rw [refusal?, if_neg h]
    exact iff_of_false nofun h

end WireType

namespace Registry

def ofTypes (types : List WireType) : Registry :=
  types.foldl (fun r t => r.register t.carrier) empty

example : ofTypes WireType.builtin = basic := rfl

def entryAt (r : Registry) (path : String) : Option Descriptor :=
  (r.types.find? (·.1 == path)).map (·.2)

theorem descriptor_eq (r : Registry) (t : WireType) :
    r.descriptor t.carrier =
    ((r.entryAt t.path).map .ok).getD (.error (.unregistered t.descriptor.name)) := by
  unfold descriptor entryAt WireType.path
  cases r.types.find? (·.1 == Scalar.path t.carrier) <;> rfl

theorem contains_iff (r : Registry) (t : WireType) :
    r.contains t.carrier ↔ (r.entryAt t.path).isSome := by
  rw [contains, entryAt, Option.isSome_map, List.find?_isSome, List.any_eq_true]
  rfl

theorem entryAt_register (r : Registry) (t : WireType) (path : String) :
    (r.register t.carrier).entryAt path =
      (r.entryAt path).or (if t.path == path then some t.descriptor else none) := by
  by_cases hold : r.contains t.carrier
  · rw [register, if_pos hold]
    by_cases hpath : t.path = path
    · have hfound := (r.contains_iff t).mp hold
      rw [hpath] at hfound
      rw [Option.or_of_isSome hfound]
    · rw [if_neg (mt beq_iff_eq.mp hpath), Option.or_none]
  · rw [register, if_neg hold, entryAt, List.find?_append, Option.map_or, List.find?_singleton,
      apply_ite (Option.map _)]
    rfl

theorem entryAt_foldl (types : List WireType) (r : Registry) (path : String) :
    (types.foldl (fun r t => r.register t.carrier) r).entryAt path =
      (r.entryAt path).or ((types.find? (·.path == path)).map (·.descriptor)) := by
  induction types generalizing r with
  | nil => exact (Option.or_none ..).symm
  | cons t types ih =>
    rw [List.foldl_cons, ih, entryAt_register, Option.or_assoc, List.find?_cons]
    cases t.path == path <;> rfl

theorem entryAt_ofTypes (types : List WireType) (path : String) :
    (ofTypes types).entryAt path = (types.find? (·.path == path)).map (·.descriptor) :=
  entryAt_foldl types empty path

variable {types : List WireType} {t : WireType}

theorem knows_ofTypes (h : t.OwnsPath types) (ht : t.IsAmong types) :
    (ofTypes types).Knows t.carrier := by
  obtain ⟨s, hs, hpath⟩ := ht
  obtain ⟨first, hfirst⟩ := Option.isSome_iff_exists.mp
    (List.find?_isSome (p := (·.path == t.path)).mpr ⟨s, hs, beq_iff_eq.mpr hpath⟩)
  have hfound := List.find?_some hfirst
  have hdescriptor := h first (List.mem_of_find?_eq_some hfirst) (beq_iff_eq.mp hfound)
  rw [Knows, descriptor_eq, entryAt_ofTypes, hfirst, Option.map_some, hdescriptor]
  rfl

theorem descriptor_ofTypes (h : ¬t.IsAmong types) :
    (ofTypes types).descriptor t.carrier = .error (.unregistered t.descriptor.name) := by
  have hnone : types.find? (·.path == t.path) = none :=
    List.find?_eq_none.mpr fun s hs hpath => h ⟨s, hs, beq_iff_eq.mp hpath⟩
  rw [descriptor_eq, entryAt_ofTypes, hnone]
  rfl

theorem packed_ofTypes (h : t.OwnsPath types) (a : t.carrier) :
    (ofTypes types).packed a = (t.refusal? types).elim (.ok (Scalar.bytes a)) .error := by
  by_cases ht : t.IsAmong types
  · rw [(knows_ofTypes h ht).packed, WireType.refusal?, if_pos ht]
    rfl
  · rw [packed, descriptor_ofTypes ht, WireType.refusal?, if_neg ht]
    rfl

end Registry

end HaloIndex
