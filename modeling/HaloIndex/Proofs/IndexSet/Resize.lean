import HaloIndex.IndexSet.Resize
import HaloIndex.Proofs.IndexSet.Keys

namespace HaloIndex

namespace IndexSet

variable {G A : Type}

theorem ok_of_require {α : Type} {s : IndexSet G A} {operation : String} {expected : Phase}
    {f : Unit → Except Fault α} {a : α} (h : s.require operation expected >>= f = .ok a) :
    s.phase = expected ∧ f () = .ok a := by
  unfold require at h
  split at h
  next hphase => exact ⟨hphase, h⟩
  next => cases h

theorem afterCheck_require {α : Type} {s : IndexSet G A} {expected : Phase}
    (hphase : s.phase = expected) (operation : String) (change : Except Fault α × IndexSet G A) :
    afterCheck (s.require operation expected) s change = change := by
  rw [require, if_pos hphase]
  rfl

theorem cases_afterCheck {α : Type} {s s' : IndexSet G A} {operation : String} {expected : Phase}
    {change : Except Fault α × IndexSet G A} {outcome : Except Fault α}
    (h : afterCheck (s.require operation expected) s change = (outcome, s')) :
    s.phase = expected ∧ change = (outcome, s') ∨ outcome.isOk = false ∧ s' = s := by
  rw [require] at h
  split at h
  next hphase => exact .inl ⟨hphase, h⟩
  next =>
    cases h
    exact .inr ⟨rfl, rfl⟩

theorem beginResize_eq {s : IndexSet G A} (hphase : s.phase = .ground) :
    s.beginResize = (.ok (), { s with phase := .resize }) :=
  afterCheck_require hphase ..

theorem eq_of_beginResize {s s' : IndexSet G A} (h : s.beginResize = (.ok (), s')) :
    s.phase = .ground ∧ s' = { s with phase := .resize } := by
  rcases cases_afterCheck h with ⟨hphase, h⟩ | ⟨hok, -⟩
  · cases h
    exact ⟨hphase, rfl⟩
  · cases hok

@[simp]
theorem isDeleted_withState_deleted (h : Holding G A) :
    (h.withState .deleted).isDeleted = true := rfl

@[simp]
theorem isDeleted_withState_valid (h : Holding G A) :
    (h.withState .valid).isDeleted = false := rfl

theorem withState_valid {h : Holding G A} (hvalid : h.isDeleted = false) :
    h.withState .valid = h := by
  obtain ⟨globalId, ⟨slot, state⟩, role, isPublic⟩ := h
  cases state with
  | valid => rfl
  | deleted => cases hvalid

theorem withState_deleted {h : Holding G A} (hdeleted : h.isDeleted = true) :
    (h.withState .valid).withState .deleted = h := by
  obtain ⟨globalId, ⟨slot, state⟩, role, isPublic⟩ := h
  cases state with
  | valid => cases hdeleted
  | deleted => rfl

theorem map_key_place (next : Nat) (as : List (Addition G A)) :
    (place next as).map Holding.key = as.map Addition.key := by
  induction as generalizing next with
  | nil => rfl
  | cons a as ih =>
    unfold place
    split <;> rw [List.map_cons, List.map_cons, ih] <;> rfl

theorem eq_of_mem_place {next : Nat} {as : List (Addition G A)} {h : Holding G A}
    (hmem : h ∈ place next as) :
    ∃ a ∈ as, ∃ slot, h = ⟨a.key.globalId, .valid slot a.key.role a.isPublic⟩ := by
  induction as generalizing next with
  | nil => cases hmem
  | cons a as ih =>
    have hlater : ∀ next, h ∈ place next as → ∃ a' ∈ a :: as, ∃ slot,
        h = ⟨a'.key.globalId, .valid slot a'.key.role a'.isPublic⟩ := by
      intro next hmem
      obtain ⟨a', ha', hh⟩ := ih hmem
      exact ⟨a', List.mem_cons_of_mem _ ha', hh⟩
    unfold place at hmem
    split at hmem
    all_goals rcases List.mem_cons.mp hmem with hh | hmem
    all_goals first
      | exact ⟨a, List.mem_cons_self .., _, hh⟩
      | exact hlater _ hmem

theorem isDeleted_of_mem_place {next : Nat} {as : List (Addition G A)} {h : Holding G A}
    (hmem : h ∈ place next as) : h.isDeleted = false := by
  obtain ⟨a, -, slot, rfl⟩ := eq_of_mem_place hmem
  rfl

theorem splitAtGlobal_append [LT G] [DecidableEq G] [DecidableLT G] (s : IndexSet G A)
    (globalId : G) :
    (s.splitAtGlobal globalId).1 ++ (s.splitAtGlobal globalId).2.1 ++
    (s.splitAtGlobal globalId).2.2 =
      s.holdings := by
  simp only [splitAtGlobal, List.splitAt_eq, List.append_assoc, List.take_append_drop]

theorem modify_eq_flag {s : IndexSet G A} {position : Nat} (h : position < s.size) :
    ∃ before same after, s.holdings = before ++ same ++ after ∧
      s.holdings.modify position (Holding.withState · .deleted) =
        before ++ same.map (Holding.withState · .deleted) ++ after := by
  obtain ⟨before, x, after, hsplit, -, hmodify⟩ :=
    List.exists_of_modify (Holding.withState · .deleted) h
  exact ⟨before, [x], after, by simp [hsplit], by simp [hmodify]⟩

variable [LT G] [LT A]

/-- Keys ascend; the pending keys are those of the additions, different from each other and from
the keys that stay; nothing waits in a set that is closed for changes. -/
structure WellFormed (s : IndexSet G A) : Prop where
  ascending : Ascending s.keys
  queued : s.pendingKeys = s.additions.map Addition.key
  distinct : (s.additions.map Addition.key).Nodup
  fresh : ∀ a ∈ s.additions, ∀ h ∈ s.holdings, h.key = a.key → h.isDeleted = true
  settled : s.phase = .ground → s.additions = [] ∧ ∀ h ∈ s.holdings, h.isDeleted = false

theorem WellFormed.pendingKeys_eq_nil {s : IndexSet G A} (hs : s.WellFormed)
    (hphase : s.phase = .ground) :
    s.pendingKeys = [] := by
  rw [hs.queued, (hs.settled hphase).1, List.map_nil]

theorem WellFormed.of_settled {s : IndexSet G A} (hascending : Ascending s.keys)
    (hnone : s.additions = []) (hpending : s.pendingKeys = [])
    (hvalid : ∀ h ∈ s.holdings, h.isDeleted = false) : s.WellFormed := by
  constructor
  case ascending => exact hascending
  case queued => rw [hpending, hnone, List.map_nil]
  case distinct => exact hnone ▸ .nil
  case fresh => exact hnone ▸ nofun
  case settled => exact fun _ => ⟨hnone, hvalid⟩

theorem wellFormed_empty : (empty : IndexSet G A).WellFormed := .of_settled .nil rfl rfl nofun

theorem inOrder_survivors [IsStrictTotalOrder G (· < ·)] [IsStrictTotalOrder A (· < ·)]
    {s : IndexSet G A} (hs : s.WellFormed) : s.survivors.Pairwise fun a b => ¬b.key < a.key := by
  have hkeys : s.holdings.Pairwise fun a b => ¬b.key < a.key :=
    List.pairwise_map.mp hs.ascending.inOrder
  exact hkeys.sublist List.filter_sublist

section Changes

variable {s s' : IndexSet G A}

theorem WellFormed.of_keys (hs : s.WellFormed) (hkeys : s'.keys = s.keys)
    (hadditions : s'.additions = s.additions) (hpending : s'.pendingKeys = s.pendingKeys)
    (hlive : ∀ h ∈ s'.holdings, h.isDeleted = false → ∃ h' ∈ s.holdings,
      h'.key = h.key ∧ h'.isDeleted = false)
    (hsettled : s'.phase = .ground →
      s'.additions = [] ∧ ∀ h ∈ s'.holdings, h.isDeleted = false) :
    s'.WellFormed := by
  refine ⟨hkeys ▸ hs.ascending, ?_, hadditions ▸ hs.distinct, fun a ha h hh he => ?_, hsettled⟩
  · rw [hpending, hadditions, hs.queued]
  by_contra hnot
  obtain ⟨h', hh', hkey, hvalid⟩ := hlive h hh (by simpa using hnot)
  rw [hs.fresh a (hadditions ▸ ha) h' hh' (hkey.trans he)] at hvalid
  cases hvalid

variable {outcome : Except Fault Unit}

theorem WellFormed.opened (hs : s.WellFormed) :
    ({ s with phase := .resize } : IndexSet G A).WellFormed :=
  hs.of_keys rfl rfl rfl (fun h hh hvalid => ⟨h, hh, rfl, hvalid⟩) nofun

theorem WellFormed.beginResize (hs : s.WellFormed) (h : s.beginResize = (outcome, s')) :
    s'.WellFormed := by
  rcases cases_afterCheck h with ⟨-, h⟩ | ⟨-, rfl⟩
  · cases h
    exact hs.opened
  · exact hs

theorem WellFormed.flag (hs : s.WellFormed) (hphase : s.phase = .resize)
    {before same after : List (Holding G A)} (hsplit : s.holdings = before ++ same ++ after) :
    { s with
      holdings := before ++ same.map (Holding.withState · .deleted) ++ after }.WellFormed := by
  refine hs.of_keys ?_ rfl rfl (fun h hh hvalid => ?_) fun hground => ?_
  · simp only [keys, hsplit, List.map_append, List.map_map]
    rfl
  · simp only [List.mem_append, List.mem_map] at hh
    rcases hh with (hh | ⟨h, -, rfl⟩) | hh
    · exact ⟨h, by simp [hsplit, hh], rfl, hvalid⟩
    · cases hvalid
    · exact ⟨h, by simp [hsplit, hh], rfl, hvalid⟩
  · cases hphase.symm.trans hground

theorem WellFormed.deleteAt (hs : s.WellFormed) {position : Nat}
    (h : s.deleteAt position = (outcome, s')) : s'.WellFormed := by
  rcases cases_afterCheck h with ⟨hphase, h⟩ | ⟨-, rfl⟩
  · split at h
    next hlt =>
      cases h
      obtain ⟨before, same, after, hsplit, hmodify⟩ := modify_eq_flag hlt
      rw [hmodify]
      exact hs.flag hphase hsplit
    next =>
      cases h
      exact hs
  · exact hs

theorem WellFormed.abortResize (hs : s.WellFormed) : s.abortResize.WellFormed := by
  unfold IndexSet.abortResize
  split
  next =>
    refine .of_settled ?_ rfl rfl fun h hh => ?_
    · simp only [keys, List.map_map]
      exact hs.ascending
    · obtain ⟨h, -, rfl⟩ := List.mem_map.mp hh
      rfl
  next => exact hs

theorem WellFormed.renumbered (hs : s.WellFormed) (hphase : s.phase = .ground) :
    ({ s with
      holdings := s.holdings.mapIdx fun i h => h.withSlot i } : IndexSet G A).WellFormed := by
  obtain ⟨hnone, hvalid⟩ := hs.settled hphase
  refine hs.of_keys ?_ rfl rfl (fun h hh _ => ?_) fun _ => ⟨hnone, fun h hh => ?_⟩
  · exact List.ext_getElem (by simp [keys]) fun i _ _ => by simp [keys]
  · obtain ⟨i, hi, rfl⟩ := List.mem_mapIdx.mp hh
    exact ⟨s.holdings[i], List.getElem_mem hi, rfl, hvalid _ (List.getElem_mem hi)⟩
  · obtain ⟨i, hi, rfl⟩ := List.mem_mapIdx.mp hh
    exact hvalid s.holdings[i] (List.getElem_mem hi)

theorem WellFormed.renumber (hs : s.WellFormed) (h : s.renumber = (outcome, s')) :
    s'.WellFormed := by
  rcases cases_afterCheck h with ⟨hphase, h⟩ | ⟨-, rfl⟩
  · cases h
    exact hs.renumbered hphase
  · exact hs

end Changes

variable [DecidableEq G] [DecidableLT G]

theorem WellFormed.deleteGlobal {s s' : IndexSet G A} (hs : s.WellFormed) {globalId : G}
    {outcome : Except Fault Nat} (h : s.deleteGlobal globalId = (outcome, s')) :
    s'.WellFormed := by
  rcases cases_afterCheck h with ⟨hphase, h⟩ | ⟨-, rfl⟩
  · cases h
    exact hs.flag hphase (s.splitAtGlobal_append globalId).symm
  · exact hs

variable [DecidableLT A]

def merged (s : IndexSet G A) : List (Holding G A) :=
  s.survivors.merge (place (firstFreeSlot s.fixedSlots) s.sortedAdditions)
    fun a b => !decide (b.key < a.key)

def committed (s : IndexSet G A) : IndexSet G A :=
  { holdings := s.merged, additions := [], pendingKeys := [], phase := .ground,
    revision := s.revision + 1 }

theorem perm_sortedAdditions (s : IndexSet G A) : s.sortedAdditions.Perm s.additions :=
  List.mergeSort_perm ..

theorem perm_merged (s : IndexSet G A) :
    s.merged.Perm (s.survivors ++ place (firstFreeSlot s.fixedSlots) s.sortedAdditions) :=
  List.merge_perm_append _

theorem commit_eq {s : IndexSet G A} (hphase : s.phase = .resize) :
    s.commit = (.ok (), s.committed) :=
  afterCheck_require hphase ..

theorem eq_of_commit {s s' : IndexSet G A} (h : s.commit = (.ok (), s')) :
    s.phase = .resize ∧ s' = s.committed := by
  rcases cases_afterCheck h with ⟨hphase, h⟩ | ⟨hok, -⟩
  · cases h
    exact ⟨hphase, rfl⟩
  · cases hok

/-- A commit that is not stopped does the same in every build. -/
theorem commit_of_commitBy {build : Build} {s s' : IndexSet G A}
    (h : s.commitBy build = (.ok (), s')) :
    s.commit = (.ok (), s') ∧ (build = .checked → s.countsOn = true) := by
  cases build with
  | plain => exact ⟨h, nofun⟩
  | checked =>
    obtain ⟨-, h⟩ := ok_of_afterCheck h
    split at h
    next hcounts => exact ⟨h, fun _ => hcounts⟩
    next => cases h

theorem mem_merged {s : IndexSet G A} {h : Holding G A} : h ∈ s.merged ↔
    h ∈ s.survivors ∨ h ∈ place (firstFreeSlot s.fixedSlots) s.sortedAdditions := List.mem_merge

theorem isDeleted_of_mem_merged {s : IndexSet G A} {h : Holding G A} (hh : h ∈ s.merged) :
    h.isDeleted = false := by
  rcases mem_merged.mp hh with hh | hh
  · simpa using (List.mem_filter.mp hh).2
  · exact isDeleted_of_mem_place hh

theorem merged_of_none {s : IndexSet G A} (h : s.additions = []) : s.merged = s.survivors := by
  rw [merged, sortedAdditions, h, List.mergeSort_nil, place]
  exact List.merge_right _

/-- A commit keeps the keys that were not given up and takes in those that waited. -/
theorem mem_keys_commit {s s' : IndexSet G A} (hs : s.WellFormed) (h : s.commit = (.ok (), s'))
    {k : Key G A} :
    k ∈ s'.keys ↔ (∃ h ∈ s.holdings, h.key = k ∧ h.isDeleted = false) ∨ k ∈ s.pendingKeys := by
  obtain ⟨-, rfl⟩ := eq_of_commit h
  have hplaced (n : Nat) : (∃ h ∈ place n s.sortedAdditions, h.key = k) ↔
      k ∈ s.additions.map Addition.key := by
    rw [← List.mem_map, map_key_place, sortedAdditions]
    simp only [List.mem_map, List.mem_mergeSort]
  simp only [committed, mem_keys, mem_merged, or_and_right, exists_or, hplaced,
    hs.queued, survivors, List.mem_filter, Bool.not_eq_true', and_assoc]
  refine or_congr_left (exists_congr fun h => ?_)
  rw [and_comm (a := h.isDeleted = false)]

theorem misplaced_eq_none {holdings : List (Holding G A)}
    (h : Ascending (holdings.map Holding.key)) : misplaced holdings = none := by
  induction holdings with
  | nil => rfl
  | cons a rest ih =>
    obtain ⟨ha, hrest⟩ := List.pairwise_cons.mp h
    cases rest with
    | nil => rfl
    | cons b rest =>
      rw [misplaced, if_pos (ha b.key (List.mem_cons_self ..))]
      exact ih hrest

theorem WellFormed.validate [Scalar G] [Role A] {s : IndexSet G A} (hs : s.WellFormed)
    (hphase : s.phase = .ground) : s.validate = .ok () := by
  have hvalid : s.holdings.find? (·.isDeleted) = none := by
    rw [List.find?_eq_none]
    intro h hh
    simp [(hs.settled hphase).2 h hh]
  rw [IndexSet.validate, misplaced_eq_none hs.ascending, hvalid]

theorem add_eq [DecidableEq A] [Scalar G] [Role A] {s : IndexSet G A}
    (hphase : s.phase = .resize) {key : Key G A} (hnew : s.holds key = false) (isPublic : Bool)
    (slot : Option Nat) :
    s.add key isPublic slot = (.ok (), s.queue ⟨key, slot, isPublic⟩) := by
  rw [add, afterCheck_require hphase, hnew]
  rfl

theorem add_keeps [DecidableEq A] [Scalar G] [Role A] {P : IndexSet G A → Prop}
    {s : IndexSet G A} {key : Key G A} {isPublic : Bool} {slot : Option Nat} (hs : P s)
    (hqueue : s.phase = .resize → s.holds key = false → P (s.queue ⟨key, slot, isPublic⟩)) :
    P (s.add key isPublic slot).2 := by
  cases hadd : s.add key isPublic slot with
  | mk outcome s' =>
    rcases cases_afterCheck hadd with ⟨hphase, hadd⟩ | ⟨-, rfl⟩
    · split at hadd
      next =>
        cases hadd
        exact hs
      next hnew =>
        cases hadd
        exact hqueue hphase (by simpa using hnew)
    · exact hs

variable [IsStrictTotalOrder G (· < ·)] [IsStrictTotalOrder A (· < ·)]

theorem inOrder_place (s : IndexSet G A) (next : Nat) :
    (place next s.sortedAdditions).Pairwise fun a b => ¬b.key < a.key := by
  have hkeys : InOrder ((place next s.sortedAdditions).map Holding.key) := by
    rw [map_key_place]
    exact List.pairwise_map.mpr (pairwise_mergeSort_key Addition.key s.additions)
  exact List.pairwise_map.mp hkeys

theorem inOrder_merged {s : IndexSet G A} (hs : s.WellFormed) :
    InOrder (s.merged.map Holding.key) := by
  refine List.pairwise_map.mpr ?_
  have hmerge := List.pairwise_merge (decide_not_lt_trans Holding.key)
    (decide_not_lt_total Holding.key) s.survivors
    (place (firstFreeSlot s.fixedSlots) s.sortedAdditions)
    (by simpa using inOrder_survivors hs) (by simpa using inOrder_place s _)
  simpa [merged] using hmerge

theorem nodup_merged {s : IndexSet G A} (hs : s.WellFormed) :
    (s.merged.map Holding.key).Nodup := by
  refine (s.perm_merged.map Holding.key).nodup_iff.mpr ?_
  rw [List.map_append, map_key_place, List.nodup_append]
  refine ⟨?_, ?_, ?_⟩
  · exact hs.ascending.nodup.sublist (List.filter_sublist.map _)
  · exact (s.perm_sortedAdditions.map Addition.key).nodup_iff.mpr hs.distinct
  · rintro _ hk _ hk' rfl
    obtain ⟨h, hh, hkey⟩ := List.mem_map.mp hk
    obtain ⟨a, ha, rfl⟩ := List.mem_map.mp hk'
    obtain ⟨hmem, hvalid⟩ := List.mem_filter.mp hh
    rw [hs.fresh a (List.mem_mergeSort.mp ha) h hmem hkey] at hvalid
    cases hvalid

theorem WellFormed.committed {s : IndexSet G A} (hs : s.WellFormed) : s.committed.WellFormed :=
  .of_settled (.of_weakly (inOrder_merged hs) (nodup_merged hs)) rfl rfl fun _ =>
    isDeleted_of_mem_merged

theorem WellFormed.commit {s s' : IndexSet G A} {outcome : Except Fault Unit} (hs : s.WellFormed)
    (h : s.commit = (outcome, s')) : s'.WellFormed := by
  rcases cases_afterCheck h with ⟨-, h⟩ | ⟨-, rfl⟩
  · cases h
    exact hs.committed
  · exact hs

theorem WellFormed.queue {s : IndexSet G A} (hs : s.WellFormed) (hphase : s.phase = .resize)
    [DecidableEq A] {a : Addition G A} (hnew : s.holds a.key = false) :
    (s.queue a).WellFormed := by
  have hholds := holds_iff hs.ascending (k := a.key)
  rw [hnew, hs.queued] at hholds
  have hnot := mt hholds.mpr Bool.false_ne_true
  rw [not_or] at hnot
  refine ⟨hs.ascending, congrArg (a.key :: ·) hs.queued,
    List.nodup_cons.mpr ⟨hnot.2, hs.distinct⟩, fun b hb h hh he => ?_, fun hground => ?_⟩
  · rcases List.mem_cons.mp hb with rfl | hb
    · by_contra hdeleted
      exact hnot.1 ⟨h, hh, he, by simpa using hdeleted⟩
    · exact hs.fresh b hb h hh he
  · cases hphase.symm.trans hground

variable [DecidableEq A] [Scalar G] [Role A]

theorem WellFormed.add {s s' : IndexSet G A} (hs : s.WellFormed) {key : Key G A}
    {isPublic : Bool} {slot : Option Nat} {outcome : Except Fault Unit}
    (h : s.add key isPublic slot = (outcome, s')) :
    s'.WellFormed := by
  have hkept := add_keeps hs fun hphase hnew => hs.queue (a := ⟨key, slot, isPublic⟩) hphase hnew
  rwa [h] at hkept

/-- The sets that can be made by changing the empty set, whether or not the changes are
refused. -/
inductive Reachable : IndexSet G A → Prop where
  | empty : Reachable empty
  | beginResize {s s' : IndexSet G A} {outcome : Except Fault Unit} (hs : Reachable s)
      (h : s.beginResize = (outcome, s')) : Reachable s'
  | add {s s' : IndexSet G A} {key : Key G A} {isPublic : Bool} {slot : Option Nat}
      {outcome : Except Fault Unit} (hs : Reachable s)
      (h : s.add key isPublic slot = (outcome, s')) :
    Reachable s'
  | deleteAt {s s' : IndexSet G A} {position : Nat} {outcome : Except Fault Unit}
      (hs : Reachable s) (h : s.deleteAt position = (outcome, s')) : Reachable s'
  | deleteGlobal {s s' : IndexSet G A} {globalId : G} {outcome : Except Fault Nat}
      (hs : Reachable s) (h : s.deleteGlobal globalId = (outcome, s')) : Reachable s'
  | commit {s s' : IndexSet G A} {outcome : Except Fault Unit} (hs : Reachable s)
      (h : s.commit = (outcome, s')) : Reachable s'
  | abortResize {s : IndexSet G A} (hs : Reachable s) : Reachable s.abortResize
  | renumber {s s' : IndexSet G A} {outcome : Except Fault Unit} (hs : Reachable s)
      (h : s.renumber = (outcome, s')) : Reachable s'

theorem Reachable.wellFormed {s : IndexSet G A} (h : Reachable s) : s.WellFormed := by
  induction h with
  | empty => exact wellFormed_empty
  | beginResize _ h ih => exact ih.beginResize h
  | add _ h ih => exact ih.add h
  | deleteAt _ h ih => exact ih.deleteAt h
  | deleteGlobal _ h ih => exact ih.deleteGlobal h
  | commit _ h ih => exact ih.commit h
  | abortResize _ ih => exact ih.abortResize
  | renumber _ h ih => exact ih.renumber h

end IndexSet

end HaloIndex
