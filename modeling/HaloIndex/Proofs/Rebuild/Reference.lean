import HaloIndex.Proofs.IndexSet.Keys
import HaloIndex.Proofs.Rebuild.Table

namespace HaloIndex

variable {G A : Type}

def IndexSet.Publishes (s : IndexSet G A) (ignorePublic : Bool) (k : Key G A) : Prop :=
  ∃ h ∈ s.holdings, h.key = k ∧ (ignorePublic = true ∨ h.isPublic = true)

theorem IndexSet.Publishes.mem_keys {s : IndexSet G A} {ignorePublic : Bool} {k : Key G A}
    (h : s.Publishes ignorePublic k) : k ∈ s.keys := by
  obtain ⟨holding, hholding, hkey, -⟩ := h
  exact IndexSet.mem_keys.mpr ⟨holding, hholding, hkey⟩

namespace Publication

theorem mem_keysOf {s : IndexSet G A} {ignorePublic : Bool} {k : Key G A} :
    k ∈ keysOf s ignorePublic ↔ s.Publishes ignorePublic k := by
  simp only [keysOf, IndexSet.Publishes, List.mem_map, List.mem_filter,
    Bool.or_eq_true, and_assoc]
  refine exists_congr fun h => and_congr_right fun _ => and_comm

end Publication

namespace Rebuild

/-- The links along which a rank is to send to another. -/
def Sends (b c : Rebuild G A) (l : Link G A) : Prop :=
  b.ends.source.Publishes b.ignorePublic l.localKey ∧
    c.ends.dest.Publishes c.ignorePublic l.remoteKey

def Receives (b c : Rebuild G A) (l : Link G A) : Prop :=
  b.ends.dest.Publishes b.ignorePublic l.localKey ∧
    c.ends.source.Publishes c.ignorePublic l.remoteKey

theorem mem_source_published {b : Rebuild G A} {k : Key G A} :
    k ∈ b.published.source ↔ b.ends.source.Publishes b.ignorePublic k := by
  obtain ⟨table, ends, ignorePublic⟩ := b
  cases ends <;> exact Publication.mem_keysOf

theorem mem_destKeys_published {b : Rebuild G A} {k : Key G A} :
    k ∈ b.published.destKeys ↔ b.ends.dest.Publishes b.ignorePublic k := by
  obtain ⟨table, ends, ignorePublic⟩ := b
  cases ends <;> exact Publication.mem_keysOf

theorem links_isEmpty_iff {links : Links G A} :
    links.isEmpty = true ↔ links.send = [] ∧ links.receive = [] := by
  cases links <;> simp [Links.isEmpty, Links.send, Links.receive]

theorem mem_sources_ring {size rank k : Nat} (hrank : rank < size) (hk : k < size)
    (hne : k ≠ rank) (neighbours : RankSet) : k ∈ Route.ring.sources size rank neighbours := by
  simp only [Route.sources, List.mem_map, List.mem_range'_1]
  by_cases hlt : k < rank
  · refine ⟨rank - k, by omega, ?_⟩
    rw [hop, show rank + size - (rank - k) = k + size by omega, Nat.add_mod_right,
      Nat.mod_eq_of_lt hk]
  · refine ⟨rank + size - k, by omega, ?_⟩
    rw [hop, show rank + size - (rank + size - k) = k by omega, Nat.mod_eq_of_lt hk]

variable [LT G] [LT A]

theorem get?_loopBack [DecidableEq G] [DecidableEq A] [DecidableLT G] [DecidableLT A]
    (b : Rebuild G A) {rank k : Nat} (h : k ≠ rank) : (b.loopBack rank).get? k = none := by
  rw [loopBack, Publication.get?_enter, if_neg h]
  rfl

/-- The table has exactly the links to another rank that it should have. -/
structure Exact (b c : Rebuild G A) (t : LinkTable G A) (rank : Nat) : Prop where
  send : ∀ l, l ∈ t.sendTo rank ↔ b.Sends c l
  receive : ∀ l, l ∈ t.receiveFrom rank ↔ b.Receives c l
  sendAscends : Ascending (t.sendTo rank)
  receiveAscends : Ascending (t.receiveFrom rank)
  listed : (t.linksTo rank).isSome ↔ ∃ l, b.Sends c l ∨ b.Receives c l

variable [IsStrictTotalOrder G (· < ·)] [IsStrictTotalOrder A (· < ·)]

theorem ordered_published {b : Rebuild G A} (hsource : Ascending b.ends.source.keys)
    (hdest : Ascending b.ends.dest.keys) : b.published.Ordered := by
  have hkeys {s : IndexSet G A} (hs : Ascending s.keys) : InOrder
      (Publication.keysOf s b.ignorePublic) :=
    hs.inOrder.sublist (List.filter_sublist.map _)
  obtain ⟨table, ends, ignorePublic⟩ := b
  cases ends with
  | one set => exact ⟨hkeys hsource, nofun⟩
  | two source dest =>
    refine ⟨hkeys hsource, fun keys h => ?_⟩
    cases h
    exact hkeys hdest

variable [DecidableEq G] [DecidableEq A] [DecidableLT G] [DecidableLT A]

theorem mem_send_found {b c : Rebuild G A} (hb : b.published.Ordered) {l : Link G A} :
    l ∈ (b.published.linksWith c.published.heard false).send ↔ b.Sends c l := by
  rw [Publication.mem_send_linksWith hb c.published.ordered_heard, Link.Joins,
    mem_source_published, Publication.mem_destKeys_heard, mem_destKeys_published]
  simp [Sends]

theorem mem_receive_found {b c : Rebuild G A} (hb : b.published.Ordered) {l : Link G A} :
    l ∈ (b.published.linksWith c.published.heard false).receive ↔ b.Receives c l := by
  rw [Publication.mem_receive_linksWith hb c.published.ordered_heard, Link.Joins,
    mem_destKeys_published, Publication.mem_source_heard, mem_source_published]
  simp [Receives]

omit [IsStrictTotalOrder G (· < ·)] [IsStrictTotalOrder A (· < ·)] in
theorem lists_of_found {own other : Publication G A} {ownKeys : Bool}
    {t : LinkTable G A} {rank : Nat} (h : t.linksTo rank = own.found other ownKeys) :
    t.sendTo rank = (own.linksWith other.heard ownKeys).send ∧
      t.receiveFrom rank = (own.linksWith other.heard ownKeys).receive ∧
      ((t.linksTo rank).isSome ↔ ∃ l, l ∈ t.sendTo rank ∨ l ∈ t.receiveFrom rank) := by
  rw [Publication.found] at h
  generalize own.linksWith other.heard ownKeys = links at *
  by_cases hempty : links.isEmpty = true
  · obtain ⟨hsend, hreceive⟩ := links_isEmpty_iff.mp hempty
    rw [if_pos hempty] at h
    simp [LinkTable.sendTo, LinkTable.receiveFrom, h, hsend, hreceive]
  · rw [if_neg hempty] at h
    have hsend : t.sendTo rank = links.send := by rw [LinkTable.sendTo, h]; rfl
    have hreceive : t.receiveFrom rank = links.receive := by rw [LinkTable.receiveFrom, h]; rfl
    refine ⟨hsend, hreceive, iff_of_true (by rw [h]; rfl) ?_⟩
    by_contra hnone
    simp only [not_exists, not_or, hsend, hreceive] at hnone
    exact hempty (links_isEmpty_iff.mpr ⟨List.eq_nil_iff_forall_not_mem.mpr fun l => (hnone l).1,
      List.eq_nil_iff_forall_not_mem.mpr fun l => (hnone l).2⟩)

theorem exact_of_found {b c : Rebuild G A} (hb : b.published.Ordered)
    {t : LinkTable G A} {rank : Nat} (h : t.linksTo rank = b.published.found c.published false) :
    b.Exact c t rank := by
  obtain ⟨hsend, hreceive, hlisted⟩ := lists_of_found h
  obtain ⟨hsends, hreceives⟩ :=
    Publication.ascending_linksWith b.published c.published.heard false
  have hmem (l : Link G A) : l ∈ t.sendTo rank ↔ b.Sends c l := by rw [hsend, mem_send_found hb]
  have hmem' (l : Link G A) : l ∈ t.receiveFrom rank ↔ b.Receives c l := by
    rw [hreceive, mem_receive_found hb]
  simp only [hmem, hmem'] at hlisted
  exact ⟨hmem, hmem', hsend ▸ hsends, hreceive ▸ hreceives, hlisted⟩

variable [Scalar G] [Role A] [LawfulScalar G] [LawfulRole A]

/-- However two or more ranks are interleaved while they rebuild around the ring, all of them end
well, and each is linked to each other rank along exactly the keys that both publish. -/
theorem ring_rebuild_exact {n : Network} {registry : Nat → Registry} {tag : Tag}
    {b : Nat → Rebuild G A}
    (hclear : ∀ source < n.size, ∀ dest < n.size, n.channel source dest tag = [])
    (hspeaks : ∀ rank < n.size, (registry rank).SpeaksFully G)
    (hring : ∀ rank < n.size,
      { (b rank).table with neighbours := (b rank).neighbours rank }.route n.size = .ok .ring)
    (htag : ∀ rank < n.size, (b rank).table.settings.rebuildTag = tag)
    (hsource : ∀ rank < n.size, (b rank).ends.source.AtRest)
    (hdest : ∀ rank < n.size, (b rank).ends.dest.AtRest)
    (hfits : ∀ rank < n.size, (b rank).published.source.length ≤ Registry.maxCount ∧
      ((b rank).published.dest.getD []).length ≤ Registry.maxCount) :
    ∃ tables : Nat → LinkTable G A,
      (Pool.ofRanks n fun rank => (b rank).program ⟨rank, n.size, registry rank⟩).Inevitable
        (fun q => q.results = (List.range n.size).map (fun rank => (.ok (), tables rank)) ∧
          q.network.traffic = n.traffic) ∧
      ∀ p < n.size, ∀ q < n.size, p ≠ q → (b p).Exact (b q) (tables p) q := by
  have hready : Rebuilds n.traffic.size registry tag .ring b :=
    ⟨hspeaks, fun rank hrank => (hsource rank hrank).phase,
      fun rank hrank => (hdest rank hrank).phase,
      hring, htag, fun rank hrank => .inr (hfits rank hrank), nofun⟩
  obtain ⟨es, hconcludes⟩ := rebuild_concludes hready hclear
  refine ⟨_, hconcludes.inevitable.mono fun q hq => ⟨hq.1, hq.2.2⟩, fun p hp q hq hne => ?_⟩
  have hordered := ordered_published (hsource p hp).ascending (hdest p hp).ascending
  refine exact_of_found hordered ?_
  change ((b p).links .ring n.size p fun k => (b k).published).get? q = _
  rw [links, Publication.get?_hear, if_pos (mem_sources_ring hp hq hne.symm _),
    get?_loopBack _ hne.symm, Option.or_none]

/-- Three ranks, of which the second has two sets and the last publishes all it holds. -/
def threeRanks (rank : Nat) : Rebuild UInt64 MeshRole where
  table := { settings := { strategy := .ring } }
  ends := match rank with
    | 0 => .one { holdings := [⟨1, .valid 0 .owner true⟩, ⟨2, .valid 1 .owner false⟩] }
    | 1 =>
      .two { holdings := [⟨1, .valid 0 .ghost true⟩] }
        { holdings := [⟨2, .valid 0 .ghost true⟩] }
    | _ => .one { holdings := [⟨1, .valid 0 .overlap false⟩] }
  ignorePublic := rank == 2

theorem atRest_threeRanks (rank : Nat) :
    (threeRanks rank).ends.source.AtRest ∧ (threeRanks rank).ends.dest.AtRest := by
  match rank with
  | 0 => exact ⟨⟨rfl, by decide⟩, ⟨rfl, by decide⟩⟩
  | 1 => exact ⟨⟨rfl, by decide⟩, ⟨rfl, by decide⟩⟩
  | _ + 2 => exact ⟨⟨rfl, List.pairwise_singleton ..⟩, ⟨rfl, List.pairwise_singleton ..⟩⟩

theorem ring_rebuild_exact_threeRanks :
    ∃ tables : Nat → LinkTable UInt64 MeshRole,
      (Pool.ofRanks (.quiet 3) fun rank =>
        (threeRanks rank).program ⟨rank, 3, .basic⟩).Inevitable
        (fun q => q.results = [(.ok (), tables 0), (.ok (), tables 1), (.ok (), tables 2)] ∧
          q.network.traffic = (Network.quiet 3).traffic) ∧
      ∀ p < 3, ∀ q < 3, p ≠ q → (threeRanks p).Exact (threeRanks q) (tables p) q :=
  ring_rebuild_exact (n := .quiet 3) (by decide)
    (fun _ _ => ⟨⟨rfl, rfl, rfl⟩, rfl⟩) (fun _ _ => rfl) (fun _ _ => rfl)
    (fun rank _ => (atRest_threeRanks rank).1)
      (fun rank _ => (atRest_threeRanks rank).2) (by decide)

end Rebuild

end HaloIndex
