import HaloIndex.IndexSet.Query
import HaloIndex.Proofs.Order

namespace HaloIndex

namespace IndexSet

variable {G A : Type}

theorem mem_keys {s : IndexSet G A} {k : Key G A} : k ∈ s.keys ↔ ∃ h ∈ s.holdings, h.key = k :=
  List.mem_map

theorem isPending_iff [DecidableEq G] [DecidableEq A] {s : IndexSet G A} {k : Key G A} :
    s.isPending k = true ↔ k ∈ s.pendingKeys := by
  simp [isPending]

variable [LT G] [LT A]

/-- A set that is closed for changes, with its keys in order. -/
structure AtRest (s : IndexSet G A) : Prop where
  phase : s.phase = .ground
  ascending : Ascending s.keys

variable [IsStrictTotalOrder G (· < ·)] [IsStrictTotalOrder A (· < ·)]

theorem eq_of_key_eq {s : IndexSet G A} (hs : Ascending s.keys) {h h' : Holding G A}
    (hmem : h ∈ s.holdings) (hmem' : h' ∈ s.holdings) (he : h.key = h'.key) : h = h' :=
  List.inj_on_of_nodup_map hs.nodup hmem hmem' he

omit [IsStrictTotalOrder A (· < ·)] in
theorem globalId_le_of_key_lt {a b : Key G A} (h : a < b) : ¬b.globalId < a.globalId := by
  rcases h with h | ⟨h, -⟩
  · exact asymm h
  · rw [h]
    exact irrefl _

variable [DecidableEq G] [DecidableLT G]

omit [IsStrictTotalOrder A (· < ·)] in
theorem takeWhile_drop_startOf {s : IndexSet G A} (hs : Ascending s.keys) (globalId : G) :
    let rest := s.holdings.drop (s.startOf globalId)
    rest.Pairwise (fun a b => decide (b.globalId = globalId) = true →
      decide (a.globalId = globalId) = true) ∧
      rest.takeWhile (fun h => decide (h.globalId = globalId)) =
        s.holdings.filter fun h => decide (h.globalId = globalId) := by
  have hpairs : s.holdings.Pairwise fun a b => ¬b.globalId < a.globalId :=
    (List.pairwise_map.mp hs).imp globalId_le_of_key_lt
  have hstart : s.holdings.Pairwise fun a b =>
      decide (b.globalId < globalId) = true → decide (a.globalId < globalId) = true := by
    apply hpairs.imp
    intro a b hab hb
    rw [decide_eq_true_eq] at hb ⊢
    by_contra hnot
    exact not_lt_trans hnot hab hb
  have hdrop : s.holdings.drop (s.startOf globalId) =
      s.holdings.filter fun h => !decide (h.globalId < globalId) :=
    (drop_partitionPoint hstart).trans (dropWhile_eq_filter hstart)
  have hfirst : (s.holdings.drop (s.startOf globalId)).Pairwise fun a b =>
      decide (b.globalId = globalId) = true → decide (a.globalId = globalId) = true := by
    rw [hdrop]
    apply (hpairs.filter _).imp_of_mem
    intro a b ha _ hab hb
    have hge := (List.mem_filter.mp ha).2
    simp only [Bool.not_eq_true', decide_eq_false_iff_not, decide_eq_true_eq] at hge hb ⊢
    subst hb
    exact Std.Trichotomous.trichotomous _ _ hge hab
  refine ⟨hfirst, ?_⟩
  rw [takeWhile_eq_filter hfirst, hdrop, List.filter_filter]
  apply List.filter_congr
  intro h _
  by_cases hglobal : h.globalId = globalId
  · simp [hglobal, irrefl (r := fun a b : G => a < b)]
  · simp [hglobal]

omit [IsStrictTotalOrder A (· < ·)] in
theorem splitAtGlobal_eq {s : IndexSet G A} (hs : Ascending s.keys) (globalId : G) :
    (s.splitAtGlobal globalId).2.1 = s.holdings.filter fun h =>
    decide (h.globalId = globalId) := by
  obtain ⟨hfirst, hsame⟩ := takeWhile_drop_startOf hs globalId
  simp only [splitAtGlobal, List.splitAt_eq]
  rw [take_partitionPoint hfirst, hsame]

omit [IsStrictTotalOrder A (· < ·)] in
theorem lookup_eq {s : IndexSet G A} (hs : Ascending s.keys) (globalId : G) :
    s.lookup globalId = (s.holdings.filter fun h => decide (h.globalId = globalId)).head? := by
  rw [lookup, ← (takeWhile_drop_startOf hs globalId).2, List.head?_takeWhile, List.head?_drop]

variable [DecidableLT A]

theorem positionOf_eq_some_iff {s : IndexSet G A} (hs : Ascending s.keys)
    {k : Key G A} {i : Nat} :
    s.positionOf k = some i ↔ s.keys[i]? = some k := by
  have hlocated := located Holding.key k hs
  rw [positionOf]
  generalize Bisection.locate _ s.holdings = place at hlocated
  cases hlocated with
  | found low x high hxs hx =>
    have hget : s.keys[low.length]? = some k := by simp [keys, hxs, hx]
    rw [Option.some.injEq]
    constructor
    · rintro rfl
      exact hget
    · intro hi
      have hlt := (List.getElem?_eq_some_iff.mp hget).1
      exact (List.getElem?_inj hlt hs.nodup).mp (hget.trans hi.symm)
  | absent low high hxs hlow hhigh =>
    refine iff_of_false nofun fun hi => ?_
    obtain ⟨h, hh, rfl⟩ := mem_keys.mp (List.mem_of_getElem? hi)
    rw [hxs, List.mem_append] at hh
    rcases hh with hh | hh
    · exact irrefl _ (hlow h hh)
    · exact irrefl _ (hhigh h hh)

theorem holdingOf_eq_some_iff {s : IndexSet G A} (hs : Ascending s.keys) {k : Key G A}
    {h : Holding G A} : s.holdingOf k = some h ↔ h ∈ s.holdings ∧ h.key = k := by
  simp only [holdingOf, Option.bind_eq_some_iff, positionOf_eq_some_iff hs, keys,
    List.getElem?_map, Option.map_eq_some_iff, List.mem_iff_getElem?]
  constructor
  · rintro ⟨i, ⟨h', hi', hk⟩, hi⟩
    cases hi.symm.trans hi'
    exact ⟨⟨i, hi⟩, hk⟩
  · rintro ⟨⟨i, hi⟩, hk⟩
    exact ⟨i, ⟨h, hi, hk⟩, hi⟩

theorem positionOf_isSome_iff {s : IndexSet G A} (hs : Ascending s.keys) {k : Key G A} :
    (s.positionOf k).isSome = true ↔ k ∈ s.keys := by
  simp only [Option.isSome_iff_exists, positionOf_eq_some_iff hs, List.mem_iff_getElem?]

theorem isLive_iff {s : IndexSet G A} (hs : Ascending s.keys) {k : Key G A} :
    s.isLive k = true ↔ ∃ h ∈ s.holdings, h.key = k ∧ h.isDeleted = false := by
  rw [isLive, Option.any_eq_true]
  simp only [holdingOf_eq_some_iff hs, Bool.not_eq_true', and_assoc]

variable [DecidableEq A]

theorem holds_iff {s : IndexSet G A} (hs : Ascending s.keys) {k : Key G A} :
    s.holds k = true ↔
    (∃ h ∈ s.holdings, h.key = k ∧ h.isDeleted = false) ∨ k ∈ s.pendingKeys := by
  rw [holds, Bool.or_eq_true, isLive_iff hs, isPending_iff]

end IndexSet

end HaloIndex
