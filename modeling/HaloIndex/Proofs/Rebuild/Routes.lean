import HaloIndex.Proofs.Rebuild.Result

namespace HaloIndex

variable {G A : Type}

theorem mem_sources_ring_iff {size rank k : Nat} (hrank : rank < size) (neighbours : RankSet) :
    k ∈ Route.ring.sources size rank neighbours ↔ k < size ∧ k ≠ rank := by
  constructor
  · intro hk
    obtain ⟨i, hi, rfl⟩ := List.mem_map.mp hk
    obtain ⟨hpos, hlt⟩ := List.mem_range'_1.mp hi
    refine ⟨Station.hop_lt hrank i, fun he => ?_⟩
    rw [hop] at he
    by_cases hle : i ≤ rank
    · rw [show rank + size - i = rank - i + size by omega, Nat.add_mod_right,
        Nat.mod_eq_of_lt (by omega)] at he
      omega
    · rw [Nat.mod_eq_of_lt (by omega)] at he
      omega
  · rintro ⟨hk, hne⟩
    exact Rebuild.mem_sources_ring hrank hk hne neighbours

theorem Prepared.mem_sources_comm [Scalar G] [Role A] [LT G] [LT A] {size : Nat}
    {registry : Nat → Registry} {tag : Tag} {route : Route} {b : Nat → Rebuild G A}
    (h : Prepared size registry tag route b) {p q : Nat} (hp : p < size) (hq : q < size)
    (hpq : q ∈ route.sources size p ((b p).neighbours p)) :
    p ∈ route.sources size q ((b q).neighbours q) := by
  cases route with
  | ring =>
    exact (mem_sources_ring_iff hq _).mpr ⟨hp, ((mem_sources_ring_iff hp _).mp hpq).2.symm⟩
  | neighbours => exact (h.neighbourly rfl).symm p hp q hpq

namespace Rebuild

def around (b : Rebuild G A) : Rebuild G A :=
  { b with table := { b.table with settings := { b.table.settings with strategy := .ring } } }

def Declares (b : Rebuild G A) (rank : Nat) : Prop := rank ∈ b.table.neighbours.keys

instance (b : Rebuild G A) (rank : Nat) : Decidable (b.Declares rank) :=
  inferInstanceAs (Decidable (rank ∈ b.table.neighbours.keys))

theorem mem_keys_neighbours {b : Rebuild G A} {rank k : Nat} :
    k ∈ (b.neighbours rank).keys ↔ k ≠ rank ∧ b.Declares k := by
  rw [neighbours, Declares, NatMap.mem_keys, NatMap.mem_keys, NatMap.get?_erase]
  split
  next h => simp [h]
  next h => simp [h]

/-- Both ranks publish some identifier, be it as a source or as a destination. -/
def Shares (b c : Rebuild G A) : Prop :=
  ∃ k k', k.globalId = k'.globalId ∧
    (b.ends.source.Publishes b.ignorePublic k ∨ b.ends.dest.Publishes b.ignorePublic k) ∧
    (c.ends.source.Publishes c.ignorePublic k' ∨ c.ends.dest.Publishes c.ignorePublic k')

def Linked (b c : Rebuild G A) : Prop := ∃ l, b.Sends c l ∨ b.Receives c l

theorem Linked.shares {b c : Rebuild G A} (h : b.Linked c) : b.Shares c := by
  obtain ⟨l, ⟨hlocal, hremote⟩ | ⟨hlocal, hremote⟩⟩ := h
  · exact ⟨l.localKey, l.remoteKey, rfl, .inl hlocal, .inr hremote⟩
  · exact ⟨l.localKey, l.remoteKey, rfl, .inr hlocal, .inl hremote⟩

section Preparing

variable [Scalar G] [Role A] [LT G] [LT A] {size : Nat} {registry : Nat → Registry} {tag : Tag}
  {b : Nat → Rebuild G A}

/-- Every rank declares another, and all who are declared declare each other. -/
structure Declared (size : Nat) (b : Nat → Rebuild G A) : Prop where
  other : ∀ rank < size, ∃ k, (b rank).Declares k ∧ k ≠ rank
  inRange : ∀ rank < size, ∀ k, (b rank).Declares k → k < size
  symmetric : ∀ rank < size, ∀ k, (b rank).Declares k → (b k).Declares rank

omit [Scalar G] [Role A] [LT G] [LT A] in
theorem route_neighbours (hsize : 2 ≤ size) (hdeclared : Declared size b) {rank : Nat}
    (hrank : rank < size) (hstrategy : (b rank).table.settings.strategy ≠ .ring) :
    { (b rank).table with
      neighbours := (b rank).neighbours rank }.route size = .ok .neighbours := by
  have hsome : ((b rank).neighbours rank).isEmpty = false := by
    obtain ⟨k, hk, hne⟩ := hdeclared.other rank hrank
    have hin := List.mem_map.mp (mem_keys_neighbours.mpr ⟨hne, hk⟩)
    obtain ⟨e, he, -⟩ := hin
    exact List.isEmpty_eq_false_iff_exists_mem.mpr ⟨e, he⟩
  rw [LinkTable.route, if_neg (by omega)]
  cases hcase : (b rank).table.settings.strategy with
  | ring => exact absurd hcase hstrategy
  | neighbours => simp only [hsome, Bool.false_eq_true, if_false]
  | auto => simp only [hsome, Bool.not_false, if_true]

theorem prepared_neighbours (hsize : 2 ≤ size) (hdeclared : Declared size b)
    (hstrategy : ∀ rank < size, (b rank).table.settings.strategy ≠ .ring)
    (hspeaks : ∀ rank < size, (registry rank).SpeaksFully G)
    (hsource : ∀ rank < size, (b rank).ends.source.AtRest)
    (hdest : ∀ rank < size, (b rank).ends.dest.AtRest)
    (htag : ∀ rank < size, (b rank).table.settings.rebuildTag = tag) :
    Prepared size registry tag .neighbours b := by
  refine ⟨hspeaks, hsource, hdest, fun rank hrank =>
    route_neighbours hsize hdeclared hrank (hstrategy rank hrank), htag, fun _ => ?_⟩
  constructor
  case nodup =>
    intro rank _
    exact NatMap.nodup_keys _
  case lt =>
    intro rank hrank k hk
    exact hdeclared.inRange rank hrank k (mem_keys_neighbours.mp hk).2
  case symm =>
    intro rank hrank k hk
    obtain ⟨hne, hk⟩ := mem_keys_neighbours.mp hk
    exact mem_keys_neighbours.mpr ⟨hne.symm, hdeclared.symmetric rank hrank k hk⟩

theorem prepared_around (hsize : 2 ≤ size)
    (hspeaks : ∀ rank < size, (registry rank).SpeaksFully G)
    (hsource : ∀ rank < size, (b rank).ends.source.AtRest)
    (hdest : ∀ rank < size, (b rank).ends.dest.AtRest)
    (htag : ∀ rank < size, (b rank).table.settings.rebuildTag = tag) :
    Prepared size registry tag .ring fun rank => (b rank).around := by
  refine ⟨hspeaks, hsource, hdest, fun rank hrank => ?_, htag, nofun⟩
  rw [LinkTable.route, if_neg (by omega)]
  rfl

end Preparing

variable [LT G] [LT A] [DecidableEq G] [DecidableEq A] [DecidableLT G] [DecidableLT A]
  {size : Nat} {b : Nat → Rebuild G A} {rank : Nat}

/-- The links to the rank itself and to its declared neighbours are found on either route. -/
theorem links_result_neighbours (hdeclared : Declared size b) (hrank : rank < size) :
    (result .neighbours size b rank).links =
      (result .ring size (fun k => (b k).around) rank).links.filter
        fun k _ => decide (k = rank ∨ (b rank).Declares k) := by
  apply NatMap.ext_get?
  intro k
  rw [NatMap.get?_filter_keys fun k => decide (k = rank ∨ (b rank).Declares k)]
  change (result .neighbours size b rank).linksTo k =
    if _ then (result .ring size (fun k => (b k).around) rank).linksTo k else none
  by_cases hk : k = rank
  · subst hk
    rw [if_pos (by simp), linksTo_result_self, linksTo_result_self]
    · rfl
    · exact fun h => ((mem_sources_ring_iff hrank _).mp h).2 rfl
    · exact fun h => (mem_keys_neighbours.mp h).1 rfl
  · have hdirect : k ∈ Route.neighbours.sources size rank ((b rank).neighbours rank) ↔
        k ≠ rank ∧ (b rank).Declares k := mem_keys_neighbours
    rw [linksTo_result .neighbours size b hk, linksTo_result .ring size _ hk]
    by_cases hdeclares : (b rank).Declares k
    · rw [if_pos (hdirect.mpr ⟨hk, hdeclares⟩), if_pos (by simp [hdeclares]),
        if_pos ((mem_sources_ring_iff hrank _).mpr
          ⟨hdeclared.inRange rank hrank k hdeclares, hk⟩)]
      rfl
    · rw [if_neg fun h => hdeclares (hdirect.mp h).2, if_neg (by simp [hk, hdeclares])]

theorem result_neighbours (hdeclared : Declared size b) (hrank : rank < size) :
    result .neighbours size b rank =
      { result .ring size (fun k => (b k).around) rank with
        settings := (b rank).table.settings
        links := (result .ring size (fun k => (b k).around) rank).links.filter
          fun k _ => decide (k = rank ∨ (b rank).Declares k) } := by
  rw [← links_result_neighbours hdeclared hrank]
  rfl

section Sharing

variable [Scalar G] [Role A] [IsStrictTotalOrder G (· < ·)] [IsStrictTotalOrder A (· < ·)]
  {registry : Nat → Registry} {tag : Tag}

theorem isSome_result_ring_iff (h : Prepared size registry tag .ring fun k => (b k).around)
    (hrank : rank < size) {k : Nat} (hk : k < size) (hne : k ≠ rank) :
    ((result .ring size (fun k => (b k).around) rank).linksTo k).isSome ↔
    (b rank).Linked (b k) :=
  (exact_result h hrank hne ((mem_sources_ring_iff hrank _).mpr ⟨hk, hne⟩)).listed

theorem sameLinks_result_iff (hdeclared : Declared size b)
    (h : Prepared size registry tag .ring fun k => (b k).around) (hrank : rank < size) :
    (result .neighbours size b rank).sameLinks
    (result .ring size (fun k => (b k).around) rank) = true ↔
      ∀ k < size, k ≠ rank → (b rank).Linked (b k) → (b rank).Declares k := by
  rw [LinkTable.sameLinks, decide_eq_true_eq, links_result_neighbours hdeclared hrank]
  constructor
  · intro hsame k hk hne hlinked
    have hlisted := (isSome_result_ring_iff h hrank hk hne).mpr hlinked
    by_contra hnot
    rw [LinkTable.linksTo, ← hsame,
      NatMap.get?_filter_keys fun k => decide (k = rank ∨ (b rank).Declares k),
      if_neg (by simp [hne, hnot])] at hlisted
    cases hlisted
  · intro hall
    apply NatMap.ext_get?
    intro k
    rw [NatMap.get?_filter_keys fun k => decide (k = rank ∨ (b rank).Declares k)]
    split
    next => rfl
    next hnot =>
      simp only [decide_eq_true_eq, not_or] at hnot
      obtain ⟨hne, hnot⟩ := hnot
      by_cases hk : k < size
      · have hnone := mt (isSome_result_ring_iff h hrank hk hne).mp fun hlinked =>
          hnot (hall k hk hne hlinked)
        exact (Option.not_isSome_iff_eq_none.mp hnone).symm
      · have hfar := linksTo_result .ring size (fun k => (b k).around) hne
        rw [if_neg fun hin => hk ((mem_sources_ring_iff hrank _).mp hin).1] at hfar
        exact hfar.symm

end Sharing

variable [Scalar G] [Role A] [IsStrictTotalOrder G (· < ·)] [IsStrictTotalOrder A (· < ·)]
  [LawfulScalar G] [LawfulRole A]

/-- However the ranks are interleaved, a rebuild with the declared neighbours ends with the
tables of a rebuild around the ring, restricted to the declared neighbours and the rank's links
to itself; the two are equal if all who publish a common identifier have declared each other. -/
theorem neighbour_rebuild_agrees {n : Network} {registry : Nat → Registry} {tag : Tag}
    {b : Nat → Rebuild G A} (hsize : 2 ≤ n.size) (hdeclared : Declared n.size b)
    (hstrategy : ∀ rank < n.size, (b rank).table.settings.strategy ≠ .ring)
    (hclear : ∀ source < n.size, ∀ dest < n.size, n.channel source dest tag = [])
    (hspeaks : ∀ rank < n.size, (registry rank).SpeaksFully G)
    (htag : ∀ rank < n.size, (b rank).table.settings.rebuildTag = tag)
    (hsource : ∀ rank < n.size, (b rank).ends.source.AtRest)
    (hdest : ∀ rank < n.size, (b rank).ends.dest.AtRest) :
    ∃ tables ringTables : Nat → LinkTable G A,
      Yields n registry b tables ∧ Yields n registry (fun rank => (b rank).around) ringTables ∧
      (∀ rank < n.size, tables rank =
        { ringTables rank with
          settings := (b rank).table.settings
          links := (ringTables rank).links.filter fun k _ =>
            decide (k = rank ∨ (b rank).Declares k) }) ∧
      (∀ rank < n.size, (tables rank).sameLinks (ringTables rank) = true ↔
        ∀ k < n.size, k ≠ rank → (b rank).Linked (b k) → (b rank).Declares k) ∧
      ((∀ p < n.size, ∀ q < n.size, p ≠ q → (b p).Shares (b q) → (b p).Declares q) →
        ∀ rank < n.size, (tables rank).sameLinks (ringTables rank) = true) := by
  have hneighbours := prepared_neighbours hsize hdeclared hstrategy hspeaks hsource hdest htag
  have hring := prepared_around hsize hspeaks hsource hdest htag
  have hsame : ∀ rank < n.size, (result .neighbours n.size b rank).sameLinks
      (result .ring n.size (fun k => (b k).around) rank) = true ↔
        ∀ k < n.size, k ≠ rank → (b rank).Linked (b k) → (b rank).Declares k :=
    fun rank hrank => sameLinks_result_iff hdeclared hring hrank
  refine ⟨_, _, yields_result hneighbours hclear, yields_result hring hclear,
    fun rank hrank => result_neighbours hdeclared hrank, hsame, fun hall rank hrank => ?_⟩
  rw [hsame rank hrank]
  intro k hk hne hlinked
  exact hall rank hrank k hk hne.symm hlinked.shares

def inARow (rank : Nat) : Rebuild UInt64 MeshRole :=
  { threeRanks rank with
    table := { neighbours := .ofRanks (if rank = 1 then [0, 1, 2] else [1]) } }

theorem declared_inARow : Declared 3 inARow := by
  have hlists : ∀ rank < 3, (∃ k ∈ (inARow rank).table.neighbours.keys, k ≠ rank) ∧
      ∀ k ∈ (inARow rank).table.neighbours.keys,
        k < 3 ∧ rank ∈ (inARow k).table.neighbours.keys := by
    decide
  constructor
  case other => exact fun rank hrank => (hlists rank hrank).1
  case inRange => exact fun rank hrank k hk => ((hlists rank hrank).2 k hk).1
  case symmetric => exact fun rank hrank k hk => ((hlists rank hrank).2 k hk).2

theorem neighbour_rebuild_agrees_inARow :
    ∃ tables ringTables : Nat → LinkTable UInt64 MeshRole,
      Yields (.quiet 3) (fun _ => .basic) inARow tables ∧
      Yields (.quiet 3) (fun _ => .basic) (fun rank => (inARow rank).around) ringTables ∧
      ∀ rank < 3, tables rank =
        { ringTables rank with
          settings := (inARow rank).table.settings
          links := (ringTables rank).links.filter
            fun k _ => decide (k = rank ∨ (inARow rank).Declares k) } := by
  have hspeaks : Registry.basic.SpeaksFully UInt64 := ⟨⟨rfl, rfl, rfl⟩, rfl⟩
  have htag : ∀ rank, (inARow rank).table.settings.rebuildTag = Tag.rebuild := fun _ => rfl
  obtain ⟨tables, ringTables, hdirect, hring, hsame, -⟩ :=
    neighbour_rebuild_agrees (n := .quiet 3) (by decide) declared_inARow
      (fun _ _ => nofun) (by decide)
      (fun _ _ => hspeaks) (fun rank _ => htag rank) (fun rank _ => (atRest_threeRanks rank).1)
      fun rank _ => (atRest_threeRanks rank).2
  exact ⟨tables, ringTables, hdirect, hring, hsame⟩

end Rebuild

end HaloIndex
