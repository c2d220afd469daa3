import HaloIndex.Proofs.IndexSet.Refinement
import HaloIndex.Proofs.IndexSet.SlotView
import HaloIndex.Proofs.IndexSet.Window

namespace HaloIndex

namespace IndexSet

variable {G A : Type}

theorem withState_deleted_self {h : Holding G A} (hdeleted : h.isDeleted = true) :
    h.withState .deleted = h := by
  obtain ⟨globalId, ⟨slot, state⟩, role, isPublic⟩ := h
  cases state with
  | valid => cases hdeleted
  | deleted => rfl

variable [DecidableEq G]

/-- The holdings of an identifier, by a look at each. -/
def scan (s : IndexSet G A) (globalId : G) : List (Holding G A) :=
  s.holdings.filter fun h => decide (h.globalId = globalId)

theorem mem_scan {s : IndexSet G A} {globalId : G} {h : Holding G A} :
    h ∈ s.scan globalId ↔ h ∈ s.holdings ∧ h.globalId = globalId := by
  rw [scan, List.mem_filter, decide_eq_true_eq]

theorem head?_scan_eq_none {s : IndexSet G A} {globalId : G} :
    (s.scan globalId).head? = none ↔ ∀ h ∈ s.holdings, h.globalId ≠ globalId := by
  simp only [List.head?_eq_none_iff, List.eq_nil_iff_forall_not_mem, mem_scan, not_and, ne_eq]

variable [LT G] [LT A] [IsStrictTotalOrder G (· < ·)] {s : IndexSet G A}

theorem ascending_scan (hs : Ascending s.keys) (globalId : G) :
    Ascending ((s.scan globalId).map Holding.role) := by
  have hkeys := (List.pairwise_map.mp hs).filter fun h => decide (h.globalId = globalId)
  refine List.pairwise_map.mpr (hkeys.imp_of_mem fun {a b} ha hb hab => ?_)
  have hsame : a.key.globalId = b.key.globalId :=
    (mem_scan.mp ha).2.trans (mem_scan.mp hb).2.symm
  rcases hab with hlt | ⟨-, hlt⟩
  · exact absurd (hsame ▸ hlt) (irrefl _)
  · exact hlt

variable [IsStrictTotalOrder A (· < ·)]

theorem head?_scan (hs : Ascending s.keys) {globalId : G} {h : Holding G A} :
    (s.scan globalId).head? = some h ↔ h ∈ s.holdings ∧ h.globalId = globalId ∧
      ∀ h' ∈ s.holdings, h'.globalId = globalId → ¬h'.role < h.role := by
  simp only [(ascending_scan hs globalId).head?_eq_some_iff, mem_scan, and_imp, and_assoc]

variable [DecidableLT G]

omit [IsStrictTotalOrder A (· < ·)] in
theorem deleteGlobal_eq (hs : Ascending s.keys) (hphase : s.phase = .resize) (globalId : G) :
    s.deleteGlobal globalId =
      (.ok (s.holdings.countP fun h => decide (h.globalId = globalId) && !h.isDeleted), { s with
        holdings := s.holdings.map fun h =>
          if h.globalId = globalId ∧ h.isDeleted = false then h.withState .deleted
          else h }) := by
  have hsame := splitAtGlobal_eq hs globalId
  have hsplit := s.splitAtGlobal_append globalId
  have hcount : (s.splitAtGlobal globalId).2.1.countP (!·.isDeleted) =
      s.holdings.countP fun h => decide (h.globalId = globalId) && !h.isDeleted := by
    rw [hsame, List.countP_filter]
    apply List.countP_congr
    intro h _
    rw [Bool.and_comm]
  have hflagged : (s.splitAtGlobal globalId).1 ++
        (s.splitAtGlobal globalId).2.1.map (Holding.withState · .deleted) ++
          (s.splitAtGlobal globalId).2.2 =
      s.holdings.map fun h =>
        if h.globalId = globalId ∧ h.isDeleted = false then h.withState .deleted else h := by
    rw [← hsplit] at hsame
    rw [map_filtered (Holding.withState · .deleted) hsame, hsplit]
    apply List.map_congr_left
    intro h _
    by_cases hglobal : h.globalId = globalId
    · cases hdeleted : h.isDeleted with
      | true => simp [hglobal, withState_deleted_self hdeleted]
      | false => simp [hglobal]
    · simp [hglobal]
  rw [deleteGlobal, afterCheck_require hphase, ← hcount, ← hflagged]

variable [Scalar G]

/-- What a set at rest answers about an identifier, and what a view of it answers, is what a scan
finds. -/
structure Answers (s : IndexSet G A) (globalId : G) (found : List (Holding G A)) : Prop where
  mem : ∀ h, h ∈ found ↔ h ∈ s.holdings ∧ h.globalId = globalId
  ascending : Ascending (found.map Holding.role)
  first : ∀ h, found.head? = some h ↔ h ∈ s.holdings ∧ h.globalId = globalId ∧
    ∀ h' ∈ s.holdings, h'.globalId = globalId → ¬h'.role < h.role
  absent : found.head? = none ↔ ∀ h ∈ s.holdings, h.globalId ≠ globalId
  rolesOf : s.rolesOf globalId = .ok found
  find : s.find globalId = .ok found.head?
  get : s.get globalId = found.head?.elim (.error (.unknownGlobal (Scalar.text globalId))) .ok
  contains : s.contains globalId = .ok found.head?.isSome
  view : ∀ v, SlotView.ofSet s = .ok v ∨ (∃ size, SlotView.withSize s size = .ok v) →
    v.find globalId = found.head?

theorem answers_scan (hs : s.AtRest) (globalId : G) : s.Answers globalId (s.scan globalId) := by
  have hfind : s.find globalId = .ok (s.scan globalId).head? := by
    rw [find, require, if_pos hs.phase, lookup_eq hs.ascending]
    rfl
  constructor
  case mem => exact fun _ => mem_scan
  case ascending => exact ascending_scan hs.ascending globalId
  case first => exact fun _ => head?_scan hs.ascending
  case absent => exact head?_scan_eq_none
  case rolesOf =>
    rw [rolesOf, require, if_pos hs.phase, splitAtGlobal_eq hs.ascending]
    rfl
  case find => exact hfind
  case get =>
    rw [get, hfind]
    cases (s.scan globalId).head? <;> rfl
  case contains =>
    rw [contains, hfind]
    rfl
  case view =>
    intro v hmade
    obtain ⟨size, hview⟩ : ∃ size, SlotView.withSize s size = .ok v := hmade.elim (⟨_, ·⟩) id
    obtain ⟨hset, -⟩ := SlotView.eq_of_withSize hview
    rw [SlotView.find, hset]
    exact lookup_eq hs.ascending globalId

/-- Whatever a set has been through, look-ups by bisection agree with a scan of its holdings:
those of an identifier and of a key at rest, that of the position of a key at any time, and that
of the holdings to flag while the set is open. The sets that a sync leaves are reachable as well
(`Sync.reachable_of_path`). -/
theorem lookups_scan [DecidableLT A] [DecidableEq A] [Role A] (hs : s.Reachable) :
    (s.phase = .ground → ∀ globalId, ∃ found, s.Answers globalId found) ∧
    (s.phase = .ground → ∀ k, ∃ found, s.findKey k = .ok found ∧
      ∀ h, found = some h ↔ h ∈ s.holdings ∧ h.key = k) ∧
    (∀ k i, s.positionOf k = some i ↔ s.keys[i]? = some k) ∧
    (s.phase = .resize → ∀ globalId, s.deleteGlobal globalId =
      (.ok (s.holdings.countP fun h => decide (h.globalId = globalId) && !h.isDeleted),
        { s with holdings := s.holdings.map fun h =>
          if h.globalId = globalId ∧ h.isDeleted = false then h.withState .deleted
          else h })) := by
  have hkeys := hs.wellFormed.ascending
  refine ⟨fun hphase globalId => ⟨_, answers_scan ⟨hphase, hkeys⟩ globalId⟩, fun hphase k => ?_,
    fun k i => positionOf_eq_some_iff hkeys, fun hphase => deleteGlobal_eq hkeys hphase⟩
  refine ⟨s.holdingOf k, ?_, fun h => holdingOf_eq_some_iff hkeys⟩
  rw [findKey, require, if_pos hphase]
  rfl

def heldTwiceLast : IndexSet UInt64 MeshRole where
  holdings := [⟨2, .valid 2 .owner true⟩, ⟨5, .valid 1 .owner true⟩, ⟨5, .valid 0 .ghost true⟩]
  revision := 1

theorem lookups_scan_heldTwiceLast : heldTwiceLast.Reachable ∧ heldTwiceLast.phase = .ground ∧
    (∃ found, heldTwiceLast.Answers 5 found) ∧
    heldTwiceLast.positionOf ⟨5, .ghost⟩ = some 2 := by
  have hreplay : (replay IndexSet.answer empty [.beginResize, .add ⟨5, .ghost⟩ true (some 0),
      .add ⟨2, .owner⟩ true none, .add ⟨5, .owner⟩ true (some 1), .commit]).2 =
        heldTwiceLast := by decide_cbv
  have hreachable : heldTwiceLast.Reachable := hreplay ▸ reachable_replay _
  obtain ⟨hglobal, -, hposition, -⟩ := lookups_scan hreachable
  exact ⟨hreachable, rfl, hglobal rfl 5, (hposition ⟨5, .ghost⟩ 2).mpr rfl⟩

end IndexSet

end HaloIndex
