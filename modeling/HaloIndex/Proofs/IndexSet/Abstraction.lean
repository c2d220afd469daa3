import HaloIndex.Proofs.IndexSet.Ledger
import HaloIndex.Proofs.IndexSet.Resize

namespace HaloIndex

theorem card_filter_toFinset {α : Type} [DecidableEq α] {xs : List α} (h : xs.Nodup)
    (p : α → Prop) [DecidablePred p] :
    (xs.toFinset.filter p).card = xs.countP fun x => decide (p x) := by
  rw [List.countP_eq_length_filter, ← List.toFinset_card_of_nodup (h.filter _),
    List.toFinset_filter]
  simp

def Holding.entry {G A : Type} (h : Holding G A) : Entry G A := ⟨h.key, h.slot, h.isPublic⟩

namespace IndexSet

variable {G A : Type} [DecidableEq G] [DecidableEq A]

def ledger (s : IndexSet G A) : Ledger G A where
  stable := (s.holdings.map Holding.entry).toFinset
  doomed := ((s.holdings.filter (·.isDeleted)).map Holding.key).toFinset
  waiting := s.additions.toFinset
  phase := s.phase
  revision := s.revision

section Views

variable {s : IndexSet G A}

theorem mem_stable_ledger {e : Entry G A} :
    e ∈ s.ledger.stable ↔ ∃ h ∈ s.holdings, h.entry = e := by
  simp [ledger]

theorem mem_doomed_ledger {k : Key G A} :
    k ∈ s.ledger.doomed ↔ ∃ h ∈ s.holdings, h.isDeleted = true ∧ h.key = k := by
  simp [ledger, and_assoc]

theorem keys_ledger (s : IndexSet G A) : s.ledger.keys = s.keys.toFinset := by
  ext k
  simp [Ledger.keys, ledger, keys, Holding.entry]

theorem pending_ledger (s : IndexSet G A) :
    s.ledger.pending = (s.additions.map Addition.key).toFinset := by
  ext k
  simp [Ledger.pending, ledger]

theorem require_ledger (s : IndexSet G A) (operation : String) (expected : Phase) :
    s.ledger.require operation expected = s.require operation expected := rfl

theorem ledger_flag {before same after : List (Holding G A)}
    (hsplit : s.holdings = before ++ same ++ after) :
    ledger { s with holdings := before ++ same.map (Holding.withState · .deleted) ++ after } =
      { s.ledger with doomed := s.ledger.doomed ∪ (same.map Holding.key).toFinset } := by
  have hentry (h : Holding G A) : (h.withState .deleted).entry = h.entry := rfl
  rw [ledger, ledger, Ledger.mk.injEq]
  refine ⟨?_, ?_, rfl, rfl, rfl⟩
  · rw [hsplit]
    simp [Function.comp_def, hentry]
  · have hall : (same.map (Holding.withState · .deleted)).filter (·.isDeleted) =
        same.map (Holding.withState · .deleted) := by simp
    have hsub : (same.filter (·.isDeleted)).map Holding.key ⊆ same.map Holding.key :=
      (List.filter_sublist.map _).subset
    simp only [hsplit, List.filter_append, List.map_append, List.toFinset_append,
      hall, List.map_map]
    ext k
    have hk : k ∈ (same.filter (·.isDeleted)).map Holding.key →
        k ∈ same.map Holding.key := @hsub k
    simp only [Finset.mem_union, List.mem_toFinset]
    tauto

end Views

variable [LT G] [LT A] [IsStrictTotalOrder G (· < ·)] [IsStrictTotalOrder A (· < ·)]

section Maps

variable {s : IndexSet G A}

theorem WellFormed.mem_doomed_iff (hs : s.WellFormed) {h : Holding G A} (hh : h ∈ s.holdings) :
    h.key ∈ s.ledger.doomed ↔ h.isDeleted = true := by
  rw [mem_doomed_ledger]
  constructor
  · rintro ⟨h', hh', hdeleted, hkey⟩
    exact eq_of_key_eq hs.ascending hh' hh hkey ▸ hdeleted
  · intro hdeleted
    exact ⟨h, hh, hdeleted, rfl⟩

theorem WellFormed.mem_live (hs : s.WellFormed) {e : Entry G A} :
    e ∈ s.ledger.live ↔ ∃ h ∈ s.survivors, h.entry = e := by
  rw [Ledger.live, Finset.mem_filter, mem_stable_ledger]
  constructor
  · rintro ⟨⟨h, hh, rfl⟩, hkept⟩
    refine ⟨h, List.mem_filter.mpr ⟨hh, ?_⟩, rfl⟩
    simpa using mt (hs.mem_doomed_iff hh).mpr hkept
  · rintro ⟨h, hh, rfl⟩
    obtain ⟨hmem, hkept⟩ := List.mem_filter.mp hh
    refine ⟨⟨h, hmem, rfl⟩, fun hdoomed => ?_⟩
    rw [(hs.mem_doomed_iff hmem).mp hdoomed] at hkept
    cases hkept

theorem WellFormed.mem_liveKeys (hs : s.WellFormed) {k : Key G A} :
    k ∈ s.ledger.liveKeys ↔ ∃ h ∈ s.holdings, h.key = k ∧ h.isDeleted = false := by
  rw [Ledger.liveKeys, Finset.mem_sdiff, keys_ledger, List.mem_toFinset, mem_keys]
  constructor
  · rintro ⟨⟨h, hh, rfl⟩, hkept⟩
    exact ⟨h, hh, rfl, by simpa using mt (hs.mem_doomed_iff hh).mpr hkept⟩
  · rintro ⟨h, hh, rfl, hkept⟩
    refine ⟨⟨h, hh, rfl⟩, fun hdoomed => ?_⟩
    rw [(hs.mem_doomed_iff hh).mp hdoomed] at hkept
    cases hkept

theorem WellFormed.slots_ledger (hs : s.WellFormed) :
    s.ledger.slots = s.fixedSlots.toFinset := by
  ext slot
  simp only [Ledger.slots, fixedSlots, Finset.mem_union, Finset.mem_image, hs.mem_live,
    Finset.mem_biUnion, Option.mem_toFinset, List.mem_toFinset, List.mem_append, List.mem_map,
    List.mem_filterMap]
  apply or_congr
  · constructor
    · rintro ⟨_, ⟨h, hh, rfl⟩, rfl⟩
      exact ⟨h, hh, rfl⟩
    · rintro ⟨h, hh, rfl⟩
      exact ⟨h.entry, ⟨h, hh, rfl⟩, rfl⟩
  · simp [ledger]

theorem WellFormed.card_keys (hs : s.WellFormed) : s.ledger.keys.card = s.size := by
  rw [keys_ledger, List.toFinset_card_of_nodup hs.ascending.nodup, keys, List.length_map, size]

end Maps

variable [DecidableLT G] [DecidableLT A]

section Positions

omit [IsStrictTotalOrder G (· < ·)] [IsStrictTotalOrder A (· < ·)] in
theorem below_toFinset {ks : List (Key G A)} (h : ks.Nodup) (k : Key G A) :
    Ledger.below ks.toFinset k = ks.countP (· < k) :=
  card_filter_toFinset h _

variable {s : IndexSet G A}

theorem WellFormed.below_getElem (hs : s.WellFormed) {i : Nat} (hi : i < s.holdings.length) :
    Ledger.below s.ledger.keys s.holdings[i].key = i := by
  have hi' : i < s.keys.length := by rwa [keys, List.length_map]
  have hget : s.keys[i] = s.holdings[i].key := List.getElem_map _
  rw [keys_ledger, below_toFinset hs.ascending.nodup, ← hget, hs.ascending.countP_lt_getElem hi']

theorem WellFormed.filter_below (hs : s.WellFormed) {i : Nat} (hi : i < s.holdings.length) :
    s.ledger.keys.filter (Ledger.below s.ledger.keys · = i) = {s.holdings[i].key} := by
  ext k
  rw [Finset.mem_filter, Finset.mem_singleton, keys_ledger, List.mem_toFinset, mem_keys,
    ← keys_ledger]
  constructor
  · rintro ⟨⟨h, hh, rfl⟩, hbelow⟩
    obtain ⟨j, hj, rfl⟩ := List.getElem_of_mem hh
    rw [hs.below_getElem hj] at hbelow
    simp only [hbelow]
  · rintro rfl
    exact ⟨⟨_, List.getElem_mem hi, rfl⟩, hs.below_getElem hi⟩

end Positions

end IndexSet

end HaloIndex
