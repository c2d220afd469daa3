import HaloIndex.Proofs.Link.Table
import Mathlib.Data.List.Pairwise

namespace HaloIndex

variable {G A : Type}

namespace Link

@[simp]
theorem reversed_reversed (l : Link G A) : l.reversed.reversed = l := rfl

theorem reversed_injective : Function.Injective (reversed : Link G A → Link G A) :=
  Function.LeftInverse.injective reversed_reversed

end Link

def SoleRole (P : A → Prop) : Prop := ∀ a b, P a → P b → a = b

/-- At every place of this identifier the second list has the link of the first seen from the
other end. -/
def PairedAt (globalId : G) (send receive : List (Link G A)) : Prop :=
  ∀ (i : Nat) (l : Link G A), send[i]? = some l → l.globalId = globalId →
    receive[i]? = some l.reversed

theorem pairedAt_iff [DecidableEq G] {send receive : List (Link G A)}
    (h : send.map Link.globalId = receive.map Link.globalId) (globalId : G) :
    PairedAt globalId send receive ↔
      (send.filter fun l => decide (l.globalId = globalId)).map Link.reversed =
        receive.filter fun l => decide (l.globalId = globalId) := by
  induction send generalizing receive with
  | nil =>
    rw [List.map_nil, eq_comm, List.map_eq_nil_iff] at h
    subst h
    simp [PairedAt]
  | cons l send ih =>
    cases receive with
    | nil => cases h
    | cons m receive =>
      obtain ⟨hlm, hrest⟩ := List.cons_eq_cons.mp h
      have ih := ih hrest
      have hcons : PairedAt globalId (l :: send) (m :: receive) ↔
          (l.globalId = globalId → m = l.reversed) ∧ PairedAt globalId send receive := by
        constructor
        · intro hpaired
          refine ⟨fun hl => ?_, fun i x hx hg => hpaired (i + 1) x hx hg⟩
          exact Option.some.inj (hpaired 0 l rfl hl)
        · rintro ⟨hfirst, hlater⟩ i x hx hg
          cases i with
          | zero =>
            cases hx
            exact congrArg some (hfirst hg)
          | succ i => exact hlater i x hx hg
      rw [hcons, ih]
      by_cases hg : l.globalId = globalId
      · have hm : m.globalId = globalId := hlm ▸ hg
        simp [hg, hm, eq_comm]
      · have hm : ¬m.globalId = globalId := hlm ▸ hg
        simp [hg, hm]

/-- What one rank is to send and another is to receive: each list has the links of the other seen
from the other end, and at every place both name the same identifier. -/
structure Mirrored (send receive : List (Link G A)) : Prop where
  reversed : (send.map Link.reversed).Perm receive
  globalIds : send.map Link.globalId = receive.map Link.globalId

section Orders

variable [LT G] [LT A] [IsStrictTotalOrder G (· < ·)]

theorem lt_iff_of_globalId_eq {l m : Link G A} (h : l.globalId = m.globalId) :
    l < m ↔ l.localRole < m.localRole ∨
    l.localRole = m.localRole ∧ l.remoteRole < m.remoteRole := by
  rw [Link.lt_iff, Key.lt_iff]
  simp only [Link.localKey, h, irrefl, false_or, true_and, Key.mk.injEq]

theorem inOrder_globalId {links : List (Link G A)} (h : Ascending links) :
    InOrder (links.map Link.globalId) := by
  apply List.pairwise_map.mpr
  apply h.imp
  rintro l m (hkey | ⟨hkey, -⟩) hlt
  · rcases hkey with hglobal | ⟨hglobal, -⟩
    · exact asymm hglobal hlt
    · rw [show l.globalId = m.globalId from hglobal] at hlt
      exact irrefl _ hlt
  · rw [show l.globalId = m.globalId from congrArg Key.globalId hkey] at hlt
    exact irrefl _ hlt

variable [IsStrictTotalOrder A (· < ·)]

theorem eq_of_inOrder_perm {α : Type} [LT α] [IsStrictTotalOrder α (· < ·)] {xs ys : List α}
    (hx : InOrder xs) (hy : InOrder ys) (h : xs.Perm ys) : xs = ys := by
  apply List.Perm.eq_of_pairwise _ hx hy h
  intro a b _ _ hab hba
  exact Std.Trichotomous.trichotomous a b hba hab

theorem exists_lt_of_not_soleRole {P : A → Prop} (h : ¬SoleRole P) :
    ∃ a b, P a ∧ P b ∧ a < b := by
  simp only [SoleRole, not_forall] at h
  obtain ⟨a, b, ha, hb, hne⟩ := h
  by_cases hlt : a < b
  · exact ⟨a, b, ha, hb, hlt⟩
  · refine ⟨b, a, hb, ha, ?_⟩
    by_contra hnot
    exact hne (Std.Trichotomous.trichotomous a b hlt hnot)

theorem lt_of_pairwise {α : Type} [LT α] [IsStrictTotalOrder α (· < ·)] {xs : List α} {f : α → α}
    (hx : Ascending xs) (hf : xs.Pairwise fun a b => f a < f b) {a b : α}
    (ha : a ∈ xs) (hb : b ∈ xs) (hlt : a < b) : f a < f b := by
  have hboth : xs.Pairwise fun a b => (a < b → f a < f b) ∧ (b < a → f b < f a) := by
    apply (hx.and hf).imp
    intro x y hxy
    exact ⟨fun _ => hxy.2, fun hyx => absurd hyx (asymm hxy.1)⟩
  have hsymmetric : Std.Symm fun a b : α => (a < b → f a < f b) ∧ (b < a → f b < f a) :=
    ⟨fun _ _ h => ⟨h.2, h.1⟩⟩
  have hne : a ≠ b := by
    rintro rfl
    exact irrefl a hlt
  exact (hboth.forall ha hb hne).1 hlt

/-- All links between some roles here and some roles there. -/
structure Crossed (globalId : G) (here there : A → Prop) (links : List (Link G A)) : Prop where
  ascending : Ascending links
  mem : ∀ l, l ∈ links ↔ l.globalId = globalId ∧ here l.localRole ∧ there l.remoteRole

theorem Crossed.ascending_reversed_iff {globalId : G} {here there : A → Prop}
    {links : List (Link G A)} (h : Crossed globalId here there links) :
    Ascending (links.map Link.reversed) ↔ SoleRole here ∨ SoleRole there := by
  rw [Ascending, List.pairwise_map]
  constructor
  · intro hreversed
    by_contra hboth
    obtain ⟨hhere, hthere⟩ := not_or.mp hboth
    obtain ⟨a, a', ha, ha', hlt⟩ := exists_lt_of_not_soleRole hhere
    obtain ⟨b, b', hb, hb', hlt'⟩ := exists_lt_of_not_soleRole hthere
    -- These two links stand in one order here and in the other order there.
    have hl : (⟨globalId, a, b'⟩ : Link G A) ∈ links := (h.mem _).mpr ⟨rfl, ha, hb'⟩
    have hm : (⟨globalId, a', b⟩ : Link G A) ∈ links := (h.mem _).mpr ⟨rfl, ha', hb⟩
    have hlm : (⟨globalId, a, b'⟩ : Link G A) < ⟨globalId, a', b⟩ := .inl (.inr ⟨rfl, hlt⟩)
    have hcross := lt_of_pairwise h.ascending hreversed hl hm hlm
    rcases (lt_iff_of_globalId_eq (by rfl)).mp hcross with hback | ⟨hback, -⟩
    · exact asymm hlt' hback
    · have hsame : b' = b := hback
      exact irrefl b (hsame ▸ hlt')
  · intro hsole
    refine h.ascending.imp_of_mem fun {l m} hl hm hlt => ?_
    obtain ⟨hlg, hlh, hlt'⟩ := (h.mem l).mp hl
    obtain ⟨hmg, hmh, hmt⟩ := (h.mem m).mp hm
    rw [lt_iff_of_globalId_eq (hlg.trans hmg.symm)] at hlt
    rw [lt_iff_of_globalId_eq
      (show l.reversed.globalId = m.reversed.globalId from hlg.trans hmg.symm)]
    change l.remoteRole < m.remoteRole ∨ l.remoteRole = m.remoteRole ∧ l.localRole < m.localRole
    rcases hsole with hsole | hsole
    · have hsame := hsole _ _ hlh hmh
      rw [hsame] at hlt
      exact .inl ((hlt.resolve_left (irrefl _)).2)
    · have hsame := hsole _ _ hlt' hmt
      rw [hsame] at hlt
      exact .inr ⟨hsame, hlt.resolve_right fun h => irrefl _ h.2⟩

end Orders

end HaloIndex
