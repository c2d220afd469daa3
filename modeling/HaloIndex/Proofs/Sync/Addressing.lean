import HaloIndex.Proofs.Sync.Scan

namespace HaloIndex

variable {G A : Type}

theorem NatMap.entries_foldl_adjust {β : Type} (f : β → β) (m : NatMap β) {keys : List Nat}
    (h : keys.Nodup) : (keys.foldl (fun m key => m.adjust key f) m).entries =
      m.entries.map fun e => (e.1, if e.1 ∈ keys then f e.2 else e.2) := by
  induction keys generalizing m with
  | nil => simp
  | cons key rest ih =>
    obtain ⟨hkey, hrest⟩ := List.nodup_cons.mp h
    rw [List.foldl_cons, ih _ hrest, entries_adjust, List.map_map]
    apply List.map_congr_left
    intro e _
    by_cases he : e.1 = key
    · simp [he, hkey]
    · simp [he]

theorem NatMap.get?_of_entries_map {β γ : Type} {m : NatMap β} {n : NatMap γ} {f : Nat → γ}
    (h : n.entries = m.entries.map fun e => (e.1, f e.1)) (key : Nat) :
    n.get? key = (m.get? key).map fun _ => f key := by
  have hn : n = ⟨m.entries.map fun e => (e.1, f e.1), List.pairwise_map.mpr m.ascending⟩ := by
    obtain ⟨entries, ascending⟩ := n
    subst h
    rfl
  refine Option.ext fun value => ?_
  simp only [hn, get?_eq_some_iff, List.mem_map, Option.map_eq_some_iff, Prod.mk.injEq]
  constructor
  · rintro ⟨⟨_, b⟩, he, rfl, rfl⟩
    exact ⟨b, he, rfl⟩
  · rintro ⟨b, he, rfl⟩
    exact ⟨(key, b), he, rfl, rfl⟩

variable [DecidableEq G] [DecidableEq A]

namespace Lockstep

theorem inOrder_current (s : Lockstep G A) : InOrder (s.current.map Prod.fst) := by
  rw [current, List.map_flatMap]
  refine List.pairwise_flatMap.mpr ⟨fun e _ => ?_, ?_⟩
  · simp only [List.map_map, Function.comp_def, List.map_const']
    exact List.pairwise_replicate.mpr (.inr (Nat.lt_irrefl _))
  · refine s.lanes.ascending.imp fun {e e'} hlt rank hrank rank' hrank' => ?_
    simp only [List.map_map, List.mem_map, Function.comp_apply] at hrank hrank'
    obtain ⟨-, -, rfl⟩ := hrank
    obtain ⟨-, -, rfl⟩ := hrank'
    exact Nat.lt_asymm hlt

end Lockstep

namespace Announcement

variable [LT G] [LT A] [DecidableLT G] [DecidableLT A]

/-- Without links there is nothing to announce, so a walk may end early. -/
theorem scan_of_isEmpty (holdings : List (Holding G A)) {s : Lockstep G A}
    (h : s.isEmpty = true) :
    scan holdings s = [] := by
  induction holdings generalizing s with
  | nil => rfl
  | cons first rest ih =>
    have hlanes : s.lanes.entries = [] := List.isEmpty_iff.mp h
    have hadvance : (s.advance ⟨first.globalId, some first.role⟩).lanes.entries = [] := by
      simp [Lockstep.advance, Lockstep.moveLanes, hlanes]
    have hcurrent : (s.advance ⟨first.globalId, some first.role⟩).current = [] := by
      rw [Lockstep.current, hadvance]
      rfl
    simp only [scan, hcurrent]
    exact ih (List.isEmpty_iff.mpr hadvance)

/-- What a rank is told on a walk is what it was told before and what the walk has for it. -/
theorem entries_announceAll (holdings : List (Holding G A)) (s : Lockstep G A)
    (told : NatMap (List (Announcement G A))) : (announceAll holdings s told).entries =
      told.entries.map fun e => (e.1, e.2 ++ (scan holdings s).filter (isFor e.1)) := by
  induction holdings generalizing s told with
  | nil => simp [announceAll, scan]
  | cons h rest ih =>
    rw [announceAll]
    by_cases hempty : s.isEmpty = true
    · rw [if_pos hempty, scan_of_isEmpty _ hempty]
      simp
    · rw [if_neg hempty, scan]
      generalize s.advance ⟨h.globalId, some h.role⟩ = lanes
      have hranks : InOrder
          ((lanes.current.map fun e => (e.1, e.2.remoteRole)).map Prod.fst) := by
        rw [List.map_map]
        exact lanes.inOrder_current
      simp only
      generalize lanes.current.map (fun e => (e.1, e.2.remoteRole)) = knowers at hranks ⊢
      split
      · exact ih lanes told
      · rw [ih, NatMap.entries_foldl_adjust _ _ (ascending_eraseReps hranks).nodup, List.map_map]
        apply List.map_congr_left
        intro e _
        have hfor : e.1 ∈ (knowers.map Prod.fst).eraseReps ↔
            isFor e.1 ⟨h.key, knowers⟩ = true := by
          simp [mem_eraseReps, isFor]
        simp only [Function.comp_apply, hfor, List.filter_cons]
        split <;> simp

theorem entries_outgoing (own : Nat) (set : IndexSet G A) (links : NatMap (List (Link G A))) :
    (outgoing own set links).entries = (links.erase own).entries.map fun e =>
      (e.1, (scan set.holdings (.ofLists links.entries)).filter (isFor e.1)) := by
  rw [outgoing, entries_announceAll, NatMap.entries_map, List.map_map]
  rfl

theorem get?_outgoing (own : Nat) (set : IndexSet G A) (links : NatMap (List (Link G A)))
    (rank : Nat) :
    (outgoing own set links).get? rank = ((links.erase own).get? rank).map fun _ =>
      (scan set.holdings (.ofLists links.entries)).filter (isFor rank) :=
  NatMap.get?_of_entries_map
    (f := fun rank => (scan set.holdings (.ofLists links.entries)).filter (isFor rank))
    (entries_outgoing own set links) rank

omit [LT G] [LT A] [DecidableLT G] [DecidableLT A] in
theorem any_knowersOf {links : NatMap (List (Link G A))} {rank : Nat} {list : List (Link G A)}
    (h : links.get? rank = some list) (k : Key G A) :
    (knowersOf links k).any (·.1 == rank) = list.any fun l => decide (l.localKey = k) := by
  rw [Bool.eq_iff_iff]
  simp only [List.any_eq_true, beq_iff_eq, decide_eq_true_eq]
  constructor
  · rintro ⟨⟨_, role⟩, hknows, rfl⟩
    rw [mem_knowersOf, h] at hknows
    exact ⟨_, hknows, rfl⟩
  · rintro ⟨l, hl, rfl⟩
    refine ⟨(rank, l.remoteRole), ?_, rfl⟩
    rw [mem_knowersOf, h]
    exact hl

omit [DecidableLT G] [DecidableLT A] in
theorem pairwise_knowersOf [IsStrictTotalOrder G (· < ·)] [IsStrictTotalOrder A (· < ·)]
    {links : NatMap (List (Link G A))} (h : ∀ e ∈ links.entries, Ascending e.2) (k : Key G A) :
    (knowersOf links k).Pairwise fun a b => a.1 < b.1 ∨ a.1 = b.1 ∧ a.2 < b.2 := by
  refine List.pairwise_flatMap.mpr ⟨fun e he => ?_, ?_⟩
  · refine List.pairwise_map.mpr
      (List.Pairwise.imp_of_mem (fun {l m} hl hm hlt => ?_) ((h e he).filter _))
    have hl : l.localKey = k := of_decide_eq_true (List.mem_filter.mp hl).2
    have hm : m.localKey = k := of_decide_eq_true (List.mem_filter.mp hm).2
    rcases hlt with hlt | ⟨-, hlt⟩
    · rw [hl, hm] at hlt
      exact absurd hlt (irrefl k)
    · exact .inr ⟨rfl, hlt⟩
  · refine links.ascending.imp fun {e e'} hlt a ha b hb => ?_
    obtain ⟨l, -, rfl⟩ := List.mem_map.mp ha
    obtain ⟨m, -, rfl⟩ := List.mem_map.mp hb
    exact .inl hlt

/-- The keys of the set that a list mentions, each announced with all who are linked to it. -/
def mentioned (set : IndexSet G A) (links : NatMap (List (Link G A))) (list : List (Link G A)) :
    List (Announcement G A) :=
  (set.keys.filter fun k => list.any fun l => decide (l.localKey = k)).map fun k => ⟨k,
    knowersOf links k⟩

/-- Each rank with a list, the own one apart, is told of the keys of the set that its list
mentions, in the order of the set and each with all who are linked to it, in the order of ranks
and roles. -/
theorem outgoing_exact [IsStrictTotalOrder G (· < ·)] [IsStrictTotalOrder A (· < ·)]
    {set : IndexSet G A} (hset : Ascending set.keys) {links : NatMap (List (Link G A))}
    (hlinks : ∀ e ∈ links.entries, Ascending e.2) (own : Nat) :
    (∀ rank, (outgoing own set links).get? rank =
      if rank = own then none else (links.get? rank).map (mentioned set links)) ∧
    ∀ k : Key G A, ((knowersOf links k).Pairwise fun a b => a.1 < b.1 ∨ a.1 = b.1 ∧ a.2 < b.2) ∧
      ∀ rank role, (rank, role) ∈ knowersOf links k ↔
        ∃ list, links.get? rank = some list ∧ ⟨k.globalId, k.role, role⟩ ∈ list := by
  refine ⟨fun rank => ?_, fun k => ⟨pairwise_knowersOf hlinks k, fun rank role => ?_⟩⟩
  · rw [get?_outgoing, NatMap.get?_erase, filter_scan hset hlinks]
    split
    next => rfl
    next =>
      cases hget : links.get? rank with
      | none => rfl
      | some list =>
        simp only [Option.map_some, toRank, mentioned, any_knowersOf hget]
  · rw [mem_knowersOf]
    cases links.get? rank <;> simp

def holdsTwice : IndexSet UInt64 MeshRole where
  holdings := [⟨1, .valid 0 .owner true⟩, ⟨1, .valid 1 .ghost true⟩, ⟨3, .valid 2 .border true⟩]

/-- Links of our own, an empty list, and a link to an identifier that the set does not hold. -/
def linksOfTwice : NatMap (List (Link UInt64 MeshRole)) := .ofList
  [(0, [⟨1, .owner, .ghost⟩, ⟨1, .ghost, .owner⟩]), (2, []),
    (4, [⟨1, .owner, .overlap⟩, ⟨3, .border, .owner⟩]),
    (6, [⟨1, .owner, .border⟩, ⟨1, .owner, .overlap⟩, ⟨2, .owner, .ghost⟩])]

theorem outgoing_exact_holdsTwice : Ascending holdsTwice.keys ∧
    (∀ e ∈ linksOfTwice.entries, Ascending e.2) ∧
    (outgoing 0 holdsTwice linksOfTwice).get? 0 = none ∧
    (outgoing 0 holdsTwice linksOfTwice).get? 2 = some [] ∧
    (outgoing 0 holdsTwice linksOfTwice).get? 4 =
      some [⟨⟨1, .owner⟩, [(0, .ghost), (4, .overlap), (6, .border), (6, .overlap)]⟩,
        ⟨⟨3, .border⟩, [(4, .owner)]⟩] ∧
    (outgoing 0 holdsTwice linksOfTwice).get? 6 =
      some [⟨⟨1, .owner⟩, [(0, .ghost), (4, .overlap), (6, .border), (6, .overlap)]⟩] := by
  have hset : Ascending holdsTwice.keys := by decide
  have hlinks : ∀ e ∈ linksOfTwice.entries, Ascending e.2 := by decide
  obtain ⟨htold, -⟩ := outgoing_exact hset hlinks 0
  exact ⟨hset, hlinks, htold 0, htold 2, htold 4, htold 6⟩

end Announcement

end HaloIndex
