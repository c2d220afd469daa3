import HaloIndex.Proofs.Link.Lockstep
import HaloIndex.Sync.Announcement

namespace HaloIndex

variable {G A : Type}

namespace Announcement

def isFor (rank : Nat) (a : Announcement G A) : Bool := a.knowers.any (·.1 == rank)

def of? (k : Key G A) (knowers : List (Nat × A)) : Option (Announcement G A) :=
  if knowers.isEmpty then none else some ⟨k, knowers⟩

theorem filter_isFor (rank : Nat) (knowers : Key G A → List (Nat × A)) (ks : List (Key G A)) :
    (ks.filterMap fun k => of? k (knowers k)).filter (isFor rank) =
      (ks.filter fun k => (knowers k).any (·.1 == rank)).map fun k => ⟨k, knowers k⟩ := by
  induction ks with
  | nil => rfl
  | cons k ks ih =>
    rw [List.filterMap_cons, List.filter_cons, of?]
    cases hknowers : knowers k with
    | nil =>
      simp only [List.isEmpty_nil, if_true, List.any_nil, Bool.false_eq_true, if_false]
      exact ih
    | cons knower rest =>
      simp only [List.isEmpty_cons, Bool.false_eq_true, if_false, List.filter_cons, isFor, ih]
      split
      · rw [List.map_cons, hknowers]
      · rfl

end Announcement

variable [DecidableEq G] [DecidableEq A]

/-- The roles under which other ranks are linked to a key, rank by rank. -/
def knowersOf (links : NatMap (List (Link G A))) (k : Key G A) : List (Nat × A) :=
  links.entries.flatMap fun e =>
    (e.2.filter fun l => decide (l.localKey = k)).map fun l => (e.1, l.remoteRole)

theorem mem_knowersOf {links : NatMap (List (Link G A))} {k : Key G A} {rank : Nat} {role : A} :
    (rank, role) ∈ knowersOf links k ↔
      ⟨k.globalId, k.role, role⟩ ∈ (links.get? rank).getD [] := by
  have hlist : ∀ l : Link G A, l ∈ (links.get? rank).getD [] ↔
      ∃ e ∈ links.entries, e.1 = rank ∧ l ∈ e.2 := by
    intro l
    cases hget : links.get? rank with
    | none =>
      refine iff_of_false List.not_mem_nil ?_
      rintro ⟨⟨_, lane⟩, he, rfl, -⟩
      rw [NatMap.get?_eq_some_iff.mpr he] at hget
      cases hget
    | some lane =>
      refine ⟨fun hl => ⟨_, NatMap.get?_eq_some_iff.mp hget, rfl, hl⟩, ?_⟩
      rintro ⟨⟨_, lane'⟩, he, rfl, hl⟩
      rw [NatMap.get?_eq_some_iff.mpr he] at hget
      cases hget
      exact hl
  simp only [knowersOf, List.mem_flatMap, List.mem_map, List.mem_filter,
    decide_eq_true_eq, hlist]
  constructor
  · rintro ⟨⟨_, lane⟩, he, ⟨globalId, _, _⟩, ⟨hl, rfl⟩, hpair⟩
    cases hpair
    exact ⟨_, he, rfl, hl⟩
  · rintro ⟨⟨_, lane⟩, he, rfl, hl⟩
    exact ⟨_, he, _, ⟨hl, rfl⟩, rfl⟩

namespace Lockstep

theorem meets_ofLists (links : NatMap (List (Link G A))) (k : Key G A) :
    ((ofLists links.entries).meets k).map
    (fun e => (e.1, e.2.remoteRole)) = knowersOf links k := by
  have hlanes : (ofLists links.entries).lanes = links.filter fun _ lane => !lane.isEmpty :=
    NatMap.ofList_entries (links.filter fun _ (lane : List (Link G A)) => !lane.isEmpty)
  have hnil : ∀ e ∈ links.entries, (!e.2.isEmpty) = false →
      (e.2.filter fun l => decide (l.localKey = k)).map (fun l => (e.1, l)) = [] := by
    intro e _ hempty
    rw [show e.2 = [] by simpa using hempty]
    rfl
  rw [meets, hlanes, NatMap.entries_filter, flatMap_filter_of_nil hnil, List.map_flatMap]
  simp only [knowersOf, List.map_map]
  rfl

end Lockstep

namespace Announcement

/-- What is to be announced to a rank: the keys that its list mentions, with all who know of
them. -/
def toRank (rank : Nat) (set : IndexSet G A) (links : NatMap (List (Link G A))) :
    List (Announcement G A) :=
  (set.keys.filter fun k => (knowersOf links k).any (·.1 == rank)).map fun k => ⟨k,
    knowersOf links k⟩

theorem mem_toRank {rank : Nat} {set : IndexSet G A} {links : NatMap (List (Link G A))}
    {a : Announcement G A} : a ∈ toRank rank set links ↔
      a.key ∈ set.keys ∧ a.knowers = knowersOf links a.key ∧ ∃ role,
      (rank, role) ∈ a.knowers := by
  have hany (k : Key G A) : ((knowersOf links k).any (·.1 == rank)) = true ↔
      ∃ role, (rank, role) ∈ knowersOf links k := by
    simp [List.any_eq_true]
  simp only [toRank, List.mem_map, List.mem_filter, hany]
  constructor
  · rintro ⟨k, ⟨hk, role, hrole⟩, rfl⟩
    exact ⟨hk, rfl, role, hrole⟩
  · obtain ⟨k, knowers⟩ := a
    rintro ⟨hk, hknowers, role, hrole⟩
    change knowers = knowersOf links k at hknowers
    subst hknowers
    exact ⟨k, ⟨hk, role, hrole⟩, rfl⟩

variable [LT G] [LT A] [DecidableLT G] [DecidableLT A]

/-- All that is announced on one walk through the lists, to whichever rank: each holding with a
link makes one announcement. -/
def scan : List (Holding G A) → Lockstep G A → List (Announcement G A)
  | [], _ => []
  | h :: rest, lanes =>
    let lanes := lanes.advance ⟨h.globalId, some h.role⟩
    let knowers := lanes.current.map fun (rank, link) => (rank, link.remoteRole)
    if knowers.isEmpty then scan rest lanes else ⟨h.key, knowers⟩ :: scan rest lanes.bump

variable [IsStrictTotalOrder G (· < ·)] [IsStrictTotalOrder A (· < ·)]

/-- One walk through the lists finds what a search for each key would find. -/
theorem scan_eq {holdings : List (Holding G A)} (h : Ascending (holdings.map Holding.key))
    {s : Lockstep G A} (hs : s.Ordered) : scan holdings s = holdings.filterMap fun h =>
      of? h.key ((s.meets h.key).map fun e => (e.1, e.2.remoteRole)) := by
  induction holdings generalizing s with
  | nil => rfl
  | cons first rest ih =>
    obtain ⟨hfirst, hrest⟩ := List.pairwise_cons.mp h
    have hahead := hs.advance ⟨first.globalId, some first.role⟩
    have hcurrent : (s.advance ⟨first.globalId, some first.role⟩).current = s.meets first.key :=
      Lockstep.current_advance hs first.key
    have hlater : ∀ h ∈ rest,
        (s.advance ⟨first.globalId, some first.role⟩).meets h.key = s.meets h.key := by
      intro h hh
      have hlt : first.key < h.key := hfirst _ (List.mem_map_of_mem hh)
      exact Lockstep.meets_advance hs (k := first.key) (asymm hlt)
    -- The links at this key are passed only if there are any, so both walks have to be followed.
    have hpassed : ∀ h ∈ rest,
        (s.advance ⟨first.globalId, some first.role⟩).bump.meets h.key = s.meets h.key := by
      intro h hh
      have hlt : first.key < h.key := hfirst _ (List.mem_map_of_mem hh)
      have hne : h.key ≠ first.key := fun he => irrefl first.key (he ▸ hlt)
      exact (Lockstep.meets_bump (k := first.key) rfl hne).trans (hlater h hh)
    rw [List.filterMap_cons]
    simp only [scan, hcurrent, of?]
    generalize (s.meets first.key).map (fun e => (e.1, e.2.remoteRole)) = knowers
    split
    next =>
      rw [ih hrest hahead]
      exact List.filterMap_congr fun h hh => by rw [hlater h hh, of?]
    next =>
      rw [ih hrest hahead.bump]
      exact congrArg _ (List.filterMap_congr fun h hh => by rw [hpassed h hh, of?])

theorem filter_scan {set : IndexSet G A} (hset : Ascending set.keys)
    {links : NatMap (List (Link G A))} (hlinks : ∀ e ∈ links.entries, Ascending e.2)
    (rank : Nat) :
    (scan set.holdings (.ofLists links.entries)).filter
    (isFor rank) = toRank rank set links := by
  have hordered : (Lockstep.ofLists links.entries).Ordered := by
    intro e he
    rw [show (Lockstep.ofLists links.entries).lanes = _ from NatMap.ofList_entries
      (links.filter fun _ (lane : List (Link G A)) => !lane.isEmpty)] at he
    exact hlinks e (List.mem_filter.mp he).1
  have hscan := scan_eq hset hordered
  simp only [Lockstep.meets_ofLists] at hscan
  rw [hscan, toRank, ← filter_isFor, IndexSet.keys, List.filterMap_map]
  rfl

end Announcement

end HaloIndex
