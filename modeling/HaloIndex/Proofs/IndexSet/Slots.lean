import HaloIndex.Proofs.IndexSet.Later

namespace HaloIndex

namespace IndexSet

variable {G A : Type}

/-- Behind all of these slots there are so many more before the last one is reached. -/
def Roomy (slots : List Nat) (count : Nat) : Prop :=
  ∃ bound, (∀ slot ∈ slots, slot < bound) ∧ bound + count < UInt64.size

theorem slotAfter_eq {slot : Nat} (h : slot + 1 < UInt64.size) : slotAfter slot = slot + 1 :=
  Nat.mod_eq_of_lt h

theorem isLeast_firstFreeSlot {slots : List Nat} {count : Nat} (h : Roomy slots count) :
    IsLeast {n | ∀ slot ∈ slots, slot < n} (firstFreeSlot slots) := by
  rw [firstFreeSlot]
  cases hmax : slots.max? with
  | none =>
    rw [List.max?_eq_none_iff.mp hmax]
    exact ⟨fun _ h => absurd h List.not_mem_nil, fun _ _ => Nat.zero_le _⟩
  | some m =>
    obtain ⟨hm, hle⟩ := List.max?_eq_some_iff.mp hmax
    obtain ⟨bound, hbound, hlt⟩ := h
    have hnext : slotAfter m = m + 1 := slotAfter_eq (by have := hbound m hm; omega)
    rw [Option.elim_some, hnext]
    exact ⟨fun slot hslot => Nat.lt_succ_of_le (hle slot hslot), fun n hn => hn m hm⟩

theorem firstFreeSlot_add_lt {slots : List Nat} {count : Nat} (h : Roomy slots count) :
    firstFreeSlot slots + count < UInt64.size := by
  have hleast := isLeast_firstFreeSlot h
  obtain ⟨bound, hbound, hlt⟩ := h
  exact Nat.lt_of_le_of_lt (Nat.add_le_add_right (hleast.2 hbound) count) hlt

theorem countsOn_iff {s : IndexSet G A} : s.countsOn = true ↔ Roomy s.fixedSlots s.unplaced := by
  rw [countsOn, decide_eq_true_eq, Roomy]
  constructor
  · intro hlt
    refine ⟨_, fun slot hslot => ?_, hlt⟩
    cases hmax : s.fixedSlots.max? with
    | none =>
      rw [List.max?_eq_none_iff.mp hmax] at hslot
      cases hslot
    | some m => exact Nat.lt_succ_of_le ((List.max?_eq_some_iff.mp hmax).2 slot hslot)
  · rintro ⟨bound, hbound, hlt⟩
    cases hmax : s.fixedSlots.max? with
    | none => exact Nat.lt_of_le_of_lt (Nat.add_le_add_right (Nat.zero_le bound) _) hlt
    | some m =>
      have hm := hbound m (List.max?_eq_some_iff.mp hmax).1
      exact Nat.lt_of_le_of_lt (Nat.add_le_add_right hm _) hlt

theorem slots_place {next : Nat} {as : List (Addition G A)}
    (h : next + as.countP (fun a => decide (a.slot = none)) < UInt64.size) :
    ((place next as).map Holding.slot).Perm
      (as.filterMap Addition.slot ++ List.range' next
        (as.countP fun a => decide (a.slot = none))) := by
  induction as generalizing next with
  | nil => exact .nil
  | cons a as ih =>
    cases hslot : a.slot with
    | some slot =>
      rw [List.countP_cons_of_neg (by simp [hslot])] at h ⊢
      rw [place, hslot, List.filterMap_cons_some hslot]
      exact (ih h).cons slot
    | none =>
      rw [List.countP_cons_of_pos (by simp [hslot])] at h ⊢
      rw [place, hslot, List.filterMap_cons_none hslot, slotAfter_eq (by omega),
        List.range'_succ]
      exact ((ih (by omega)).cons next).trans List.perm_middle.symm

theorem slots_renumbered (s : IndexSet G A) :
    (s.holdings.mapIdx fun i h => h.withSlot i).map Holding.slot = List.range s.size := by
  apply List.ext_getElem (by simp [size])
  intro i _ _
  rw [List.getElem_map, List.getElem_mapIdx, List.getElem_range]
  rfl

theorem nodup_slots_renumbered (s : IndexSet G A) :
    ((s.holdings.mapIdx fun i h => h.withSlot i).map Holding.slot).Nodup := by
  rw [slots_renumbered]
  exact List.nodup_range

variable [LT G] [LT A]

/-- Slots are different, and no slot was chosen for what waits. -/
structure Apart (s : IndexSet G A) : Prop where
  wellFormed : s.WellFormed
  distinct : (s.holdings.map Holding.slot).Nodup
  unchosen : ∀ a ∈ s.additions, a.slot = none

namespace Apart

variable {s s' : IndexSet G A}

theorem nodup_fixedSlots (h : s.Apart) : s.fixedSlots.Nodup := by
  have hnone : s.additions.filterMap Addition.slot = [] := by
    rw [List.filterMap_eq_nil_iff]
    exact h.unchosen
  rw [fixedSlots, hnone, List.append_nil]
  exact h.distinct.sublist (List.filter_sublist.map _)

theorem abortResize (h : s.Apart) : s.abortResize.Apart := by
  refine ⟨h.wellFormed.abortResize, ?_, ?_⟩
  all_goals
    rw [IndexSet.abortResize]
    split
  · rw [List.map_map]
    exact h.distinct
  · exact h.distinct
  · exact nofun
  · exact h.unchosen

end Apart

section Commits

variable [DecidableEq G] [DecidableLT G] [DecidableLT A] {s : IndexSet G A}

def slotFor (s : IndexSet G A) (a : Addition G A) : Nat :=
  a.slot.getD ((firstFreeSlot s.fixedSlots +
    s.additions.countP fun b => decide (b.slot = none ∧ b.key < a.key)) % UInt64.size)

theorem slotFor_eq (h : Roomy s.fixedSlots s.unplaced) (a : Addition G A) : s.slotFor a =
    a.slot.getD (firstFreeSlot s.fixedSlots +
      s.additions.countP fun b => decide (b.slot = none ∧ b.key < a.key)) := by
  have hcount : s.additions.countP
      (fun b => decide (b.slot = none ∧ b.key < a.key)) ≤ s.unplaced :=
    List.countP_mono_left fun b _ hb => by simpa using (of_decide_eq_true hb).1
  have hlt := firstFreeSlot_add_lt h
  rw [slotFor, Nat.mod_eq_of_lt (by omega)]

theorem perm_slots_merged (h : Roomy s.fixedSlots s.unplaced) : (s.merged.map Holding.slot).Perm
    (s.fixedSlots ++ List.range' (firstFreeSlot s.fixedSlots) s.unplaced) := by
  have hcount : (s.sortedAdditions.countP fun a => decide (a.slot = none)) = s.unplaced :=
    s.perm_sortedAdditions.countP_eq _
  have hplaced := slots_place (hcount ▸ firstFreeSlot_add_lt h)
  rw [hcount] at hplaced
  have hchosen := s.perm_sortedAdditions.filterMap Addition.slot
  have hmerged := s.perm_merged.map Holding.slot
  rw [List.map_append] at hmerged
  nth_rewrite 1 [fixedSlots]
  rw [List.append_assoc]
  exact hmerged.trans ((hplaced.trans (hchosen.append_right _)).append_left _)

/-- The new slots are different from each other and above all that are fixed. -/
theorem nodup_slots_merged (hroom : Roomy s.fixedSlots s.unplaced) (h : s.fixedSlots.Nodup) :
    (s.merged.map Holding.slot).Nodup := by
  rw [(perm_slots_merged hroom).nodup_iff, List.nodup_append]
  refine ⟨h, List.nodup_range', fun slot hslot other hother => ?_⟩
  have hlt := (isLeast_firstFreeSlot hroom).1 slot hslot
  have hle := (List.mem_range'_1.mp hother).1
  omega

variable [IsStrictTotalOrder G (· < ·)] [IsStrictTotalOrder A (· < ·)]

theorem entries_placed (hs : s.WellFormed) :
    (place (firstFreeSlot s.fixedSlots) s.sortedAdditions).map Holding.entry =
      s.sortedAdditions.map fun a => ⟨a.key, s.slotFor a, a.isPublic⟩ := by
  rw [entry_place hs.ascending_sortedAdditions (firstFreeSlot_lt _)]
  apply List.map_congr_left
  intro a _
  have hcount : ((s.sortedAdditions.filter (·.slot = none)).map Addition.key).countP
      (· < a.key) =
      s.additions.countP fun b => decide (b.slot = none ∧ b.key < a.key) := by
    rw [List.countP_map, List.countP_filter, s.perm_sortedAdditions.countP_eq]
    congr 1
    funext b
    simp [and_comm]
  rw [slotFor, hcount]

/-- What a commit leaves: all that stays, and what waited with its slot. -/
theorem perm_entries_merged (hs : s.WellFormed) : (s.merged.map Holding.entry).Perm
    (s.survivors.map Holding.entry ++ s.additions.map fun a => ⟨a.key, s.slotFor a,
      a.isPublic⟩) := by
  have hmerged := s.perm_merged.map Holding.entry
  rw [List.map_append, entries_placed hs] at hmerged
  exact hmerged.trans ((s.perm_sortedAdditions.map _).append_left _)

theorem Apart.committed (h : s.Apart) (hroom : Roomy s.fixedSlots s.unplaced) :
    s.committed.Apart :=
  ⟨h.wellFormed.committed, nodup_slots_merged hroom h.nodup_fixedSlots, nofun⟩

end Commits

variable [DecidableEq G] [DecidableEq A] [DecidableLT G] [DecidableLT A] [Scalar G] [Role A]

/-- A set that was at rest, in a window that is open since then. -/
inductive Window (s : IndexSet G A) : IndexSet G A → Prop where
  | opened {t : IndexSet G A} (h : s.beginResize = (.ok (), t)) : Window s t
  | called {t t' : IndexSet G A} {call : Call G A} {outcome : Except Fault (Option Nat)}
      (h : Window s t)
      (hcall : call ≠ .commit) (hanswer : t.answer call = (outcome, t')) : Window s t'

section Windows

variable {s s' t : IndexSet G A}

theorem Window.replay (h : s.Window t) {calls : List (Call G A)} (hcalls : .commit ∉ calls) :
    s.Window (replay IndexSet.answer t calls).2 := by
  induction calls generalizing t with
  | nil => exact h
  | cons call calls ih =>
    rw [List.mem_cons, not_or] at hcalls
    exact ih (h.called (Ne.symm hcalls.1) rfl) hcalls.2

theorem Window.phase (h : s.Window t) : t.phase = .resize := by
  induction h with
  | opened h =>
    obtain ⟨-, rfl⟩ := eq_of_beginResize h
    rfl
  | called _ hcall hanswer ih => exact phase_answer ih hanswer hcall

theorem Window.holdings (hs : s.WellFormed) (h : s.Window t) :
    t.holdings.map (Holding.withState · .valid) = s.holdings := by
  induction h with
  | opened h =>
    obtain ⟨hphase, rfl⟩ := eq_of_beginResize h
    rw [List.map_congr_left fun h hh => withState_valid ((hs.settled hphase).2 h hh),
      List.map_id']
  | @called t t' call outcome h hcall hanswer ih =>
    by_cases hrenumber : call = .renumber
    · subst hrenumber
      rcases effect_or_refused hanswer with ⟨-, heffect⟩ | ⟨-, rfl⟩
      · cases heffect with
        | renumbers hground => cases hground.symm.trans h.phase
      · exact ih
    · exact (map_answer (fun _ => rfl) hcall hrenumber hanswer).trans ih

theorem Window.mem_of_survivor (hs : s.WellFormed) (h : s.Window t) {x : Holding G A}
    (hx : x ∈ t.survivors) : x ∈ s.holdings := by
  obtain ⟨hmem, hvalid⟩ := List.mem_filter.mp hx
  rw [← h.holdings hs, ← withState_valid (h := x) (by simpa using hvalid)]
  exact List.mem_map_of_mem hmem

theorem Window.survivor_or (hs : s.WellFormed) (h : s.Window t) {x : Holding G A}
    (hx : x ∈ s.holdings) :
    x ∈ t.survivors ∨ x.withState .deleted ∈ t.holdings := by
  rw [← h.holdings hs] at hx
  obtain ⟨y, hy, rfl⟩ := List.mem_map.mp hx
  cases hdeleted : y.isDeleted with
  | false =>
    rw [withState_valid hdeleted]
    exact .inl (List.mem_filter.mpr ⟨hy, by rw [hdeleted]; rfl⟩)
  | true => exact .inr ((withState_deleted hdeleted).symm ▸ hy)

variable [IsStrictTotalOrder G (· < ·)] [IsStrictTotalOrder A (· < ·)]

theorem Window.wellFormed (hs : s.WellFormed) (h : s.Window t) : t.WellFormed := by
  induction h with
  | opened h => exact hs.beginResize h
  | called _ _ hanswer ih => exact ih.answer hanswer

end Windows

namespace Apart

variable {s s' : IndexSet G A} [IsStrictTotalOrder G (· < ·)] [IsStrictTotalOrder A (· < ·)]

/-- Slots stay different as long as no caller chooses any and there is room for more. -/
theorem answer (h : s.Apart) {call : Call G A} {outcome : Except Fault (Option Nat)}
    (hanswer : s.answer call = (outcome, s'))
    (hcall : ∀ key isPublic slot, call ≠ .add key isPublic (some slot))
    (hroom : call = .commit → Roomy s.fixedSlots s.unplaced) : s'.Apart := by
  have hwell := h.wellFormed.answer hanswer
  have hslots (hcommit : call ≠ .commit) (hrenumber : call ≠ .renumber) :
      (s'.holdings.map Holding.slot).Nodup := by
    rw [map_answer (fun _ => rfl) hcommit hrenumber hanswer]
    exact h.distinct
  rcases effect_or_refused hanswer with ⟨-, heffect⟩ | ⟨-, rfl⟩
  · cases heffect with
    | opens | flagsOne | flagsAll => exact ⟨hwell, hslots nofun nofun, h.unchosen⟩
    | @adds key isPublic slot =>
      refine ⟨hwell, hslots nofun nofun, fun a ha => ?_⟩
      rcases List.mem_cons.mp ha with rfl | ha
      · exact Option.eq_none_iff_forall_ne_some.mpr fun slot' heq =>
          hcall key isPublic slot' (heq ▸ rfl)
      · exact h.unchosen a ha
    | commits => exact h.committed (hroom rfl)
    | renumbers => exact ⟨hwell, nodup_slots_renumbered s, h.unchosen⟩
  · exact h

end Apart

end IndexSet

end HaloIndex
