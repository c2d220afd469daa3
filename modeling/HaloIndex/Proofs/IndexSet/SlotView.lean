import HaloIndex.IndexSet.SlotView
import HaloIndex.Proofs.IndexSet.Slots

namespace HaloIndex

namespace IndexSet

variable {G A : Type} {s : IndexSet G A}

theorem isLeast_max_slotAfter {slots : List Nat}
    (hslots : ∀ slot ∈ slots, slot + 1 < UInt64.size) :
    IsLeast {n | ∀ slot ∈ slots, slot < n} ((slots.map slotAfter).max?.getD 0) := by
  rw [List.map_congr_left fun slot hslot => slotAfter_eq (hslots slot hslot)]
  cases hmax : (slots.map (· + 1)).max? with
  | none =>
    rw [List.map_eq_nil_iff.mp (List.max?_eq_none_iff.mp hmax)]
    exact ⟨fun _ h => absurd h List.not_mem_nil, fun _ _ => Nat.zero_le _⟩
  | some m =>
    obtain ⟨hm, hle⟩ := List.max?_eq_some_iff.mp hmax
    obtain ⟨slot, hslot, rfl⟩ := List.mem_map.mp hm
    exact ⟨fun slot' hslot' => hle _ (List.mem_map_of_mem hslot'), fun n hn => hn slot hslot⟩

end IndexSet

namespace SlotView

variable {G A : Type} {s : IndexSet G A} {size : Nat} {v : SlotView G A}

theorem eq_of_withSize (h : withSize s size = .ok v) : v.set = s ∧ v.size = size ∧
    ∀ slot, v.holdingAt slot = (s.holdings.filter fun h => h.slot == slot).getLast? := by
  obtain ⟨-, h⟩ := IndexSet.ok_of_require h
  split at h
  next => cases h
  next =>
    split at h
    next => cases h
    next =>
      cases h
      refine ⟨rfl, rfl, fun slot => ?_⟩
      rw [holdingAt, NatMap.get?_ofList, List.filter_map, List.getLast?_map, Option.map_map]
      exact Option.map_id' ..

theorem withSize_of_capacity (hphase : s.phase = .ground) (hsize : capacity ≤ size) :
    withSize s size = .error (.panicked "capacity overflow") := by
  rw [withSize, IndexSet.require, if_pos hphase, if_pos hsize]
  rfl

theorem withSize_eq (hphase : s.phase = .ground) (hsize : size < capacity) : withSize s size =
    match s.holdings.find? (fun h => decide (size ≤ h.slot)) with
    | some h => .error (.outOfRange h.slot size)
    | none => .ok ⟨s, size, .ofList (s.holdings.map fun h => (h.slot, h))⟩ := by
  rw [withSize, IndexSet.require, if_pos hphase, if_neg (Nat.not_le.mpr hsize)]
  rfl

variable [LT G] [LT A]

/-- What a view of a set shows. -/
structure Shows (v : SlotView G A) (s : IndexSet G A) : Prop where
  set : v.set = s
  unused : ∀ slot, v.holdingAt slot = none ↔ ∀ h ∈ s.holdings, h.slot ≠ slot
  latest : ∀ slot h, v.holdingAt slot = some h ↔ h ∈ s.holdings ∧ h.slot = slot ∧
    ∀ h' ∈ s.holdings, h'.slot = slot → ¬h.key < h'.key
  inverse : (s.holdings.map Holding.slot).Nodup → ∀ slot h,
    v.holdingAt slot = some h ↔ h ∈ s.holdings ∧ h.slot = slot

variable [IsStrictTotalOrder G (· < ·)] [IsStrictTotalOrder A (· < ·)]

theorem shows_of_withSize (hs : Ascending s.keys) (h : withSize s size = .ok v) : v.Shows s := by
  obtain ⟨hset, -, hat⟩ := eq_of_withSize h
  have hmem (slot : Nat) (h : Holding G A) : h ∈ s.holdings.filter (fun h => h.slot == slot) ↔
      h ∈ s.holdings ∧ h.slot = slot := by rw [List.mem_filter, beq_iff_eq]
  have hsome (slot : Nat) (h : Holding G A) : v.holdingAt slot = some h ↔
      h ∈ s.holdings ∧ h.slot = slot ∧
      ∀ h' ∈ s.holdings, h'.slot = slot → ¬h.key < h'.key := by
    have hkeys : Ascending ((s.holdings.filter fun h => h.slot == slot).map Holding.key) :=
      hs.sublist (List.filter_sublist.map _)
    simp only [hat, hkeys.getLast?_eq_some_iff, hmem, and_imp, and_assoc]
  refine ⟨hset, fun slot => ?_, hsome, fun hnodup slot h => ?_⟩
  · simp only [hat, List.getLast?_eq_none_iff, List.eq_nil_iff_forall_not_mem, hmem,
      not_and, ne_eq]
  · rw [hsome]
    constructor
    · rintro ⟨hh, hslot, -⟩
      exact ⟨hh, hslot⟩
    · rintro ⟨hh, rfl⟩
      refine ⟨hh, rfl, fun h' hh' hslot => ?_⟩
      rw [List.inj_on_of_nodup_map hnodup hh' hh hslot]
      exact irrefl _

/-- A view that is too small is refused for the first holding that it cannot show. -/
theorem withSize_eq_error_iff (hs : s.AtRest) (hsize : size < capacity) {f : Fault} :
    withSize s size = .error f ↔
    ∃ h ∈ s.holdings, size ≤ h.slot ∧ (∀ h' ∈ s.holdings, h'.key < h.key → h'.slot < size) ∧
      f = .outOfRange h.slot size := by
  have hkeys : Ascending ((s.holdings.filter fun h => decide (size ≤ h.slot)).map Holding.key) :=
    hs.ascending.sublist (List.filter_sublist.map _)
  have hfirst (h : Holding G A) : s.holdings.find? (fun h => decide (size ≤ h.slot)) = some h ↔
      h ∈ s.holdings ∧ size ≤ h.slot ∧ ∀ h' ∈ s.holdings, h'.key < h.key → h'.slot < size := by
    rw [← List.head?_filter, hkeys.head?_eq_some_iff]
    simp only [List.mem_filter, decide_eq_true_eq, and_imp, and_assoc]
    refine and_congr_right fun _ => and_congr_right fun _ => forall₂_congr fun h' _ => ?_
    rw [← not_lt, not_imp_not]
  rw [withSize_eq hs.phase hsize]
  cases hfind : s.holdings.find? fun h => decide (size ≤ h.slot) with
  | none =>
    constructor
    · intro he
      cases he
    · rintro ⟨h, hh, hslot, hbefore, -⟩
      have hfound := (hfirst h).mpr ⟨hh, hslot, hbefore⟩
      rw [hfind] at hfound
      cases hfound
  | some h =>
    obtain ⟨hh, hslot, hbefore⟩ := (hfirst h).mp hfind
    constructor
    · intro he
      cases he
      exact ⟨h, hh, hslot, hbefore, rfl⟩
    · rintro ⟨h', hh', hslot', hbefore', rfl⟩
      rw [(hfirst h').mpr ⟨hh', hslot', hbefore'⟩] at hfind
      cases hfind
      rfl

omit [LT G] [LT A] [IsStrictTotalOrder G (· < ·)] [IsStrictTotalOrder A (· < ·)] in
theorem exists_withSize_iff (hphase : s.phase = .ground) (hsize : size < capacity) :
    (∃ v, withSize s size = .ok v) ↔ ∀ h ∈ s.holdings, h.slot < size := by
  rw [withSize_eq hphase hsize]
  cases hfind : s.holdings.find? fun h => decide (size ≤ h.slot) with
  | none =>
    refine iff_of_true ⟨_, rfl⟩ fun h hh => ?_
    simpa using List.find?_eq_none.mp hfind h hh
  | some h =>
    have hslot := List.find?_some hfind
    rw [decide_eq_true_eq] at hslot
    constructor
    · rintro ⟨v, hv⟩
      cases hv
    · intro hall
      exact absurd (hall h (List.mem_of_find?_eq_some hfind)) (Nat.not_lt.mpr hslot)

omit [LT G] [LT A] [IsStrictTotalOrder G (· < ·)] [IsStrictTotalOrder A (· < ·)] in
theorem exists_isLeast_ofSet (hslots : ∀ h ∈ s.holdings, h.slot + 1 < UInt64.size) :
    ∃ size, ofSet s = withSize s size ∧ IsLeast {n | ∀ h ∈ s.holdings, h.slot < n} size := by
  have hleast := IndexSet.isLeast_max_slotAfter (List.forall_mem_map.mpr hslots)
  rw [List.map_map] at hleast
  simp only [List.forall_mem_map] at hleast
  exact ⟨_, rfl, hleast⟩

theorem exists_ofSet (hs : s.AtRest) (hslots : ∀ h ∈ s.holdings, h.slot + 1 < capacity) :
    ∃ v, ofSet s = .ok v ∧ IsLeast {n | ∀ h ∈ s.holdings, h.slot < n} v.size ∧ v.Shows s := by
  obtain ⟨size, hofSet, hleast⟩ :=
    exists_isLeast_ofSet fun h hh => (hslots h hh).trans (by decide)
  have hbound : size ≤ capacity - 1 := hleast.2 fun h hh => Nat.lt_sub_of_add_lt (hslots h hh)
  have hsize : size < capacity := Nat.lt_of_le_of_lt hbound (by decide)
  obtain ⟨v, hv⟩ := (exists_withSize_iff hs.phase hsize).mpr hleast.1
  obtain ⟨-, rfl, -⟩ := eq_of_withSize hv
  exact ⟨v, hofSet.trans hv, hleast, shows_of_withSize hs.ascending hv⟩

omit [LT G] [LT A] [IsStrictTotalOrder G (· < ·)] [IsStrictTotalOrder A (· < ·)] in
theorem ofSet_of_capacity (hphase : s.phase = .ground)
    (hslots : ∀ h ∈ s.holdings, h.slot + 1 < UInt64.size) {h : Holding G A} (hh : h ∈ s.holdings)
    (hslot : capacity ≤ h.slot + 1) :
    ofSet s = .error (.panicked "capacity overflow") := by
  obtain ⟨size, hofSet, hleast⟩ := exists_isLeast_ofSet hslots
  rw [hofSet]
  exact withSize_of_capacity hphase (hslot.trans (hleast.1 h hh))

end SlotView

namespace IndexSet

variable {G A : Type} [LT G] [LT A] [IsStrictTotalOrder G (· < ·)] [IsStrictTotalOrder A (· < ·)]
  {s : IndexSet G A}

theorem exists_renumber (hs : s.AtRest) : ∃ s', s.renumber = (.ok (), s') ∧ s'.keys = s.keys ∧
    (s.size < SlotView.capacity → ∃ v, SlotView.ofSet s' = .ok v ∧ v.size = s.size) ∧
    ∀ size v, SlotView.withSize s' size = .ok v → ∀ i, v.holdingAt i = s'.holdings[i]? := by
  let s' : IndexSet G A := { s with holdings := s.holdings.mapIdx fun i h => h.withSlot i }
  have hkeys : s'.keys = s.keys := List.ext_getElem (by simp [keys, s']) fun i _ _ => by
    simp [keys, s']
  have hrest : s'.AtRest := ⟨hs.phase, hkeys ▸ hs.ascending⟩
  have hslots : s'.holdings.map Holding.slot = List.range s.size := slots_renumbered s
  have hslot (n : Nat) : (∀ h ∈ s'.holdings, h.slot < n) ↔ ∀ slot < s.size, slot < n := by
    rw [← List.forall_mem_map (P := (· < n)), hslots]
    simp only [List.mem_range]
  refine ⟨s', afterCheck_require hs.phase .., hkeys, fun hsize => ?_, fun size v hv i => ?_⟩
  · have hfits : ∀ h ∈ s'.holdings, h.slot + 1 < SlotView.capacity := fun h hh =>
      Nat.lt_of_le_of_lt ((hslot s.size).mpr (fun _ => id) h hh) hsize
    obtain ⟨v, hv, hleast, -⟩ := SlotView.exists_ofSet hrest hfits
    refine ⟨v, hv, hleast.unique ⟨(hslot s.size).mpr fun _ => id, fun n hn => ?_⟩⟩
    by_contra hlt
    exact Nat.lt_irrefl n ((hslot n).mp hn n (Nat.not_le.mp hlt))
  · have hview := SlotView.shows_of_withSize hrest.ascending hv
    have hplace {j : Nat} {h : Holding G A} (hj : s'.holdings[j]? = some h) : h.slot = j := by
      have hslot : (s'.holdings.map Holding.slot)[j]? = some h.slot := by
        rw [List.getElem?_map, hj]; rfl
      rw [hslots, List.getElem?_eq_some_iff] at hslot
      obtain ⟨hlt, hslot⟩ := hslot
      rw [← hslot, List.getElem_range]
    refine Option.ext fun h => ?_
    rw [hview.inverse (hslots ▸ List.nodup_range), List.mem_iff_getElem?]
    constructor
    · rintro ⟨⟨j, hj⟩, rfl⟩
      rw [hplace hj]
      exact hj
    · intro hi
      exact ⟨⟨i, hi⟩, hplace hi⟩

/-- A view can be had if all slots are below its size and a table of that size can be made;
otherwise the first holding that is not below it is reported, or the call panics. The least size
that will do is one more than the largest slot. At each slot the last holding in key order is
seen that is there, so a view of slots that differ gives back each holding at its own. -/
theorem slotView_inverts (hs : s.AtRest) (hslots : ∀ h ∈ s.holdings, h.slot + 1 < UInt64.size) :
    (∀ size < SlotView.capacity,
      ((∃ v, SlotView.withSize s size = .ok v) ↔ ∀ h ∈ s.holdings, h.slot < size) ∧
      (∀ f, SlotView.withSize s size = .error f ↔ ∃ h ∈ s.holdings, size ≤ h.slot ∧
        (∀ h' ∈ s.holdings, h'.key < h.key → h'.slot < size) ∧ f = .outOfRange h.slot size) ∧
      ∀ v, SlotView.withSize s size = .ok v → v.size = size ∧ v.Shows s) ∧
    (∀ size, SlotView.capacity ≤ size →
      SlotView.withSize s size = .error (.panicked "capacity overflow")) ∧
    ((∀ h ∈ s.holdings, h.slot + 1 < SlotView.capacity) → ∃ v, SlotView.ofSet s = .ok v ∧
      IsLeast {n | ∀ h ∈ s.holdings, h.slot < n} v.size ∧ v.Shows s) ∧
    ((∃ h ∈ s.holdings, SlotView.capacity ≤ h.slot + 1) →
      SlotView.ofSet s = .error (.panicked "capacity overflow")) ∧
    ∃ s', s.renumber = (.ok (), s') ∧ s'.keys = s.keys ∧
      (s.size < SlotView.capacity → ∃ v, SlotView.ofSet s' = .ok v ∧ v.size = s.size) ∧
      ∀ size v, SlotView.withSize s' size = .ok v → ∀ i, v.holdingAt i = s'.holdings[i]? := by
  refine ⟨fun size hsize => ⟨SlotView.exists_withSize_iff hs.phase hsize,
    fun f => SlotView.withSize_eq_error_iff hs hsize, fun v hv => ?_⟩,
    fun size hsize => SlotView.withSize_of_capacity hs.phase hsize, SlotView.exists_ofSet hs, ?_,
    exists_renumber hs⟩
  · obtain ⟨-, hsize, -⟩ := SlotView.eq_of_withSize hv
    exact ⟨hsize, SlotView.shows_of_withSize hs.ascending hv⟩
  · rintro ⟨h, hh, hslot⟩
    exact SlotView.ofSet_of_capacity hs.phase hslots hh hslot

def sharedSlot : IndexSet UInt64 MeshRole where
  holdings := [⟨2, .valid 7 .owner true⟩, ⟨3, .valid 1 .owner true⟩, ⟨5, .valid 7 .ghost true⟩]

theorem slotView_inverts_sharedSlot : sharedSlot.AtRest ∧
    SlotView.withSize sharedSlot 7 = .error (.outOfRange 7 7) ∧
    ∃ v, SlotView.ofSet sharedSlot = .ok v ∧ v.size = 8 ∧
      v.holdingAt 1 = some ⟨3, .valid 1 .owner true⟩ ∧
      v.holdingAt 7 = some ⟨5, .valid 7 .ghost true⟩ ∧ v.holdingAt 0 = none := by
  have hrest : sharedSlot.AtRest := ⟨rfl, by decide⟩
  obtain ⟨hsized, -, hall, -⟩ := slotView_inverts hrest (by decide)
  obtain ⟨v, hv, hleast, hshows⟩ := hall (by decide)
  have hfirst : SlotView.withSize sharedSlot 7 = .error (.outOfRange 7 7) :=
    ((hsized 7 (by decide)).2.1 _).mpr
      ⟨⟨2, .valid 7 .owner true⟩, by decide, by decide, by decide, rfl⟩
  have hsize : IsLeast {n | ∀ h ∈ sharedSlot.holdings, h.slot < n} 8 :=
    ⟨by decide, fun n hn => hn ⟨2, .valid 7 .owner true⟩ (by decide)⟩
  exact ⟨hrest, hfirst, v, hv, hleast.unique hsize, (hshows.latest 1 _).mpr (by decide),
    (hshows.latest 7 _).mpr (by decide), (hshows.unused 0).mpr (by decide)⟩

/-- One holding, at a slot that is far out. -/
def farOut : IndexSet UInt64 MeshRole where
  holdings := [⟨1, .valid 1152921504606846976 .owner true⟩]

theorem slotView_panics_farOut :
    farOut.AtRest ∧ (∀ h ∈ farOut.holdings, h.slot + 1 < UInt64.size) ∧
    ¬(∃ v, SlotView.ofSet farOut = .ok v) ∧
      (∀ h ∈ farOut.holdings, h.slot < 1152921504606846977) ∧
      ¬∃ v, SlotView.withSize farOut 1152921504606846977 = .ok v := by
  refine ⟨⟨rfl, by decide⟩, by decide, ?_, by decide, ?_⟩
  · rintro ⟨v, hv⟩
    cases hv
  · rintro ⟨v, hv⟩
    cases hv

end IndexSet

end HaloIndex
