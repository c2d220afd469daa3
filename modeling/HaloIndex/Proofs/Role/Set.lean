import HaloIndex.Role.Set
import Mathlib.Data.Set.Insert
import Mathlib.Logic.Function.Basic

namespace HaloIndex

theorem LawfulRole.code_injective {A : Type} [Role A] [LawfulRole A] :
    Function.Injective (Role.code : A → UInt8) := by
  intro a b h
  have ha := (LawfulRole.ofCode?_eq_some_iff (Role.code b) a).mpr h
  have hb := (LawfulRole.ofCode?_eq_some_iff (Role.code b) b).mpr rfl
  exact Option.some.inj (ha.symm.trans hb)

namespace RoleSet

variable {A : Type}

inductive Term (A : Type) where
  | empty
  | ofList (roles : List A)
  | insert (t : Term A) (a : A)
  | erase (t : Term A) (a : A)
  | union (t u : Term A)

def Term.members : Term A → Set A
  | .empty => ∅
  | .ofList roles => {a | a ∈ roles}
  | .insert t a => Insert.insert a t.members
  | .erase t a => t.members \ {a}
  | .union t u => t.members ∪ u.members

theorem all_union (s : RoleSet A) : all.union s = all := by
  apply ext_hasCode
  intro c
  rw [hasCode_union, hasCode_all, Bool.true_or]

theorem union_all (s : RoleSet A) : s.union all = all := by
  apply ext_hasCode
  intro c
  rw [hasCode_union, hasCode_all, Bool.or_true]

section Values

variable [Role A]

def Term.value : Term A → RoleSet A
  | .empty => RoleSet.empty
  | .ofList roles => RoleSet.ofList roles
  | .insert t a => t.value.insert a
  | .erase t a => t.value.erase a
  | .union t u => t.value.union u.value

theorem hasCode_foldl_insert (s : RoleSet A) (roles : List A) (c : UInt8) :
    (roles.foldl insert s).hasCode c = true ↔
    s.hasCode c = true ∨ ∃ a ∈ roles, Role.code a = c := by
  induction roles generalizing s with
  | nil => simp
  | cons first rest ih =>
    rw [List.foldl_cons, ih, hasCode_insert, Bool.or_eq_true, decide_eq_true_eq,
      eq_comm (a := c), or_assoc]
    simp

variable (hcode : Function.Injective (Role.code : A → UInt8))

include hcode

/-- The codes in a set are those of its members, so a code that no role has is never there. -/
theorem hasCode_value (t : Term A) (c : UInt8) :
    t.value.hasCode c = true ↔ ∃ a ∈ t.members, Role.code a = c := by
  induction t with
  | empty => simp [Term.value, Term.members]
  | ofList roles =>
    rw [Term.value, ofList, hasCode_foldl_insert, hasCode_empty]
    simp [Term.members]
  | insert t a ih =>
    rw [Term.value, hasCode_insert, Bool.or_eq_true, ih, decide_eq_true_eq,
      eq_comm (a := c), or_comm]
    simp [Term.members]
  | erase t a ih =>
    rw [Term.value, hasCode_erase, Bool.and_eq_true, ih, Bool.not_eq_true',
      decide_eq_false_iff_not]
    constructor
    · rintro ⟨⟨b, hb, rfl⟩, hne⟩
      exact ⟨b, ⟨hb, fun h => hne (congrArg Role.code h)⟩, rfl⟩
    · rintro ⟨b, ⟨hb, hne⟩, rfl⟩
      exact ⟨⟨b, hb, rfl⟩, fun h => hne (hcode h)⟩
  | union t u iht ihu =>
    rw [Term.value, hasCode_union, Bool.or_eq_true, iht, ihu]
    simp only [Term.members, Set.mem_union, or_and_right, exists_or]

theorem contains_value (t : Term A) (a : A) : t.value.contains a = true ↔ a ∈ t.members := by
  rw [contains, hasCode_value hcode]
  constructor
  · rintro ⟨b, hb, h⟩
    exact hcode h ▸ hb
  · intro ha
    exact ⟨a, ha, rfl⟩

theorem value_eq_iff (t u : Term A) : t.value = u.value ↔ t.members = u.members := by
  constructor
  · intro h
    ext a
    rw [← contains_value hcode, ← contains_value hcode, h]
  · intro h
    apply ext_hasCode
    intro c
    rw [Bool.eq_iff_iff, hasCode_value hcode, hasCode_value hcode, h]

/-- A set of roles holds and admits what it is meant to hold; it is empty if this is nothing, and
equal to another one if they are meant to hold the same. The full set holds every role and
absorbs all others. -/
theorem members_exact :
    (∀ (t : Term A) (a : A), (t.value.contains a = true ↔ a ∈ t.members) ∧
      (t.value.admits a = true ↔ a ∈ t.members)) ∧
    (∀ t : Term A, t.value.isEmpty = true ↔ t.members = ∅) ∧
    (∀ t u : Term A, t.value = u.value ↔ t.members = u.members) ∧
    (∀ a : A, all.contains a = true ∧ all.admits a = true) ∧
    ∀ s : RoleSet A, all.union s = all ∧ s.union all = all := by
  have hall (a : A) : all.contains a = true := hasCode_all _
  refine ⟨fun t a => ?_, fun t => ?_, value_eq_iff hcode, fun a => ⟨hall a, hall a⟩, fun s => ?_⟩
  · exact ⟨contains_value hcode t a, contains_value hcode t a⟩
  · exact isEmpty_iff.trans (value_eq_iff hcode t .empty)
  · exact ⟨all_union s, union_all s⟩

end Values

def copies : Term MeshRole := .ofList [.ghost, .border, .overlap, .border]

def copiesRearranged : Term MeshRole :=
  .union (.insert (.erase (.ofList [.owner, .ghost, .ghost]) .owner) .overlap)
    (.ofList [.border])

theorem members_exact_rearranged : Function.Injective (Role.code : MeshRole → UInt8) ∧
    copies.value = copiesRearranged.value ∧ copies.value.isEmpty = false ∧
    copies.value.admits .border = true ∧ copies.value.admits .owner = false := by
  have hcode : Function.Injective (Role.code : MeshRole → UInt8) := LawfulRole.code_injective
  obtain ⟨hmembers, hempty, hequal, -⟩ := members_exact hcode
  have hsame : copies.members = copiesRearranged.members := by
    ext a
    cases a <;> simp [copies, copiesRearranged, Term.members]
  have hborder : MeshRole.border ∈ copies.members := by simp [copies, Term.members]
  have howner : MeshRole.owner ∉ copies.members := by simp [copies, Term.members]
  refine ⟨hcode, (hequal _ _).mpr hsame, ?_, (hmembers _ _).2.mpr hborder, ?_⟩
  · rw [Bool.eq_false_iff, ne_eq, hempty]
    exact Set.Nonempty.ne_empty ⟨_, hborder⟩
  · rw [Bool.eq_false_iff, ne_eq, (hmembers _ _).2]
    exact howner

end RoleSet

end HaloIndex
