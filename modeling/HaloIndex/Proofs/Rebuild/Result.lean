import HaloIndex.Proofs.Rebuild.Reference
import HaloIndex.Proofs.Transport.Outcome

namespace HaloIndex

variable {G A : Type}

/-- Ranks that are ready to rebuild on a route, however much they publish. -/
structure Prepared [Scalar G] [Role A] [LT G] [LT A] (size : Nat)
    (registry : Nat → Registry) (tag : Tag) (route : Route) (b : Nat → Rebuild G A) : Prop where
  speaks : ∀ rank < size, (registry rank).SpeaksFully G
  source : ∀ rank < size, (b rank).ends.source.AtRest
  dest : ∀ rank < size, (b rank).ends.dest.AtRest
  onRoute : ∀ rank < size,
    { (b rank).table with neighbours := (b rank).neighbours rank }.route size = .ok route
  tag : ∀ rank < size, (b rank).table.settings.rebuildTag = tag
  neighbourly : route = .neighbours →
    Neighbourly size fun rank => ((b rank).neighbours rank).keys

/-- The counts of what is published fit into a message; a rank on its own may have none to
send. -/
def Countable (size : Nat) (b : Nat → Rebuild G A) : Prop :=
  ∀ rank < size, (size = 1 ∧ (b rank).wantsSelf = false) ∨
    (b rank).published.source.length ≤ Registry.maxCount ∧
      ((b rank).published.dest.getD []).length ≤ Registry.maxCount

instance (size : Nat) (b : Nat → Rebuild G A) : Decidable (Countable size b) :=
  inferInstanceAs (Decidable (∀ rank < size, _))

theorem Publication.fits_of_encode [Scalar G] [Role A] {r : Registry} {p : Publication G A}
    {bytes : List UInt8} (h : p.encode r = .ok bytes) : p.source.length ≤ Registry.maxCount ∧
      (p.dest.getD []).length ≤ Registry.maxCount := by
  obtain ⟨_, -, h⟩ := ok_of_bind h
  obtain ⟨_, -, h⟩ := ok_of_bind h
  obtain ⟨_, -, h⟩ := ok_of_bind h
  obtain ⟨_, -, h⟩ := ok_of_bind h
  obtain ⟨_, -, h⟩ := ok_of_bind h
  obtain ⟨_, hsource, h⟩ := ok_of_bind h
  obtain ⟨_, hdest, -⟩ := ok_of_bind h
  exact ⟨r.le_of_packedCount hsource, r.le_of_packedCount hdest⟩

theorem countable_of_packs [Scalar G] [Role A] {size : Nat} (registry : Nat → Registry)
    {b : Nat → Rebuild G A} (h : ∀ rank < size, ¬(size = 1 ∧ (b rank).wantsSelf = false) → ∀ f,
      (b rank).published.encode (registry rank) ≠ .error f) : Countable size b := by
  intro rank hrank
  by_cases hquits : size = 1 ∧ (b rank).wantsSelf = false
  · exact .inl hquits
  · right
    cases hencode : (b rank).published.encode (registry rank) with
    | ok bytes => exact Publication.fits_of_encode hencode
    | error fault => exact absurd hencode (h rank hrank hquits fault)

namespace Rebuild

variable [LT G] [LT A] [DecidableEq G] [DecidableEq A] [DecidableLT G] [DecidableLT A]
  {size : Nat}

/-- The table of a rank that has heard all that comes by on its route. -/
def result (route : Route) (size : Nat) (b : Nat → Rebuild G A) (rank : Nat) : LinkTable G A :=
  ((b rank).settle rank (.ok ((b rank).links route size rank fun k => (b k).published))).2

theorem linksTo_result (route : Route) (size : Nat) (b : Nat → Rebuild G A) {rank k : Nat}
    (hne : k ≠ rank) : (result route size b rank).linksTo k =
      if k ∈ route.sources size rank ((b rank).neighbours rank) then
        (b rank).published.found (b k).published false
      else none := by
  change ((b rank).links route size rank fun k => (b k).published).get? k = _
  rw [links, Publication.get?_hear, get?_loopBack _ hne, Option.or_none]

theorem linksTo_result_self (route : Route) (b : Nat → Rebuild G A) {rank : Nat}
    (h : rank ∉ route.sources size rank ((b rank).neighbours rank)) :
    (result route size b rank).linksTo rank = ((b rank).loopBack rank).get? rank := by
  change ((b rank).links route size rank fun k => (b k).published).get? rank = _
  rw [links, Publication.get?_hear, if_neg h]

theorem exists_found_of_mem_result (route : Route) (b : Nat → Rebuild G A) {rank : Nat}
    {e : Nat × Links G A} (he : e ∈ (result route size b rank).links.entries) :
    ∃ other ownKeys, (b rank).published.found other ownKeys = some e.2 := by
  have hget := NatMap.get?_eq_some_iff.mpr (show (e.1, e.2) ∈ _ from he)
  by_cases hself : e.1 = rank
  · change ((b rank).links route size rank fun k => (b k).published).get? e.1 = _ at hget
    have hback : ∀ links, ((b rank).loopBack rank).get? rank = some links →
        ∃ other ownKeys, (b rank).published.found other ownKeys = some links := by
      intro links h
      rw [loopBack, Publication.get?_enter, if_pos rfl, NatMap.get?_empty, Option.or_none] at h
      split at h
      · exact ⟨_, _, h⟩
      · cases h
    rw [links, Publication.get?_hear, hself] at hget
    split at hget
    · rcases Option.or_eq_some_iff.mp hget with hfound | ⟨-, hfound⟩
      · exact ⟨_, _, hfound⟩
      · exact hback _ hfound
    · exact hback _ hget
  · have hlinks := linksTo_result route size b hself
    rw [LinkTable.linksTo, hget] at hlinks
    split at hlinks
    · exact ⟨_, _, hlinks.symm⟩
    · cases hlinks

end Rebuild

variable [Scalar G] [Role A] [LT G] [LT A] {size : Nat} {registry : Nat → Registry} {tag : Tag}
  {route : Route} {b : Nat → Rebuild G A}

theorem Prepared.rebuilds (h : Prepared size registry tag route b) (hfits : Countable size b) :
    Rebuilds size registry tag route b :=
  ⟨h.speaks, fun rank hrank => (h.source rank hrank).phase,
    fun rank hrank => (h.dest rank hrank).phase, h.onRoute, h.tag, hfits, h.neighbourly⟩

namespace Rebuild

variable [DecidableEq G] [DecidableEq A] [DecidableLT G] [DecidableLT A] {n : Network}

def beginning (n : Network) (registry : Nat → Registry) (b : Nat → Rebuild G A) :
    Pool (Except Fault Unit × LinkTable G A) :=
  .ofRanks n fun rank => (b rank).program ⟨rank, n.size, registry rank⟩

theorem program_unpacked (h : Prepared size registry tag route b) {rank : Nat}
    (hrank : rank < size) (hquits : ¬(size = 1 ∧ (b rank).wantsSelf = false)) {f : Fault}
    (hpack : (b rank).published.encode (registry rank) = .error f) :
    ((b rank).program ⟨rank, size, registry rank⟩).Always fun r => r.1 ≠ .ok () := by
  rw [program_eq (b rank) ⟨rank, size, registry rank⟩ (h.source rank hrank).phase
    (h.dest rank hrank).phase
    (h.onRoute rank hrank),
      collect_unpacked (b rank) ⟨rank, size, registry rank⟩ route hquits hpack]
  intro hok
  cases hok

/-- If all ranks have ended well, their counts did fit, whatever it is that begins with a
rebuild. -/
theorem countable_of_ended {α : Type} {f : Nat → Program α} {ended : α → Prop}
    (h : Prepared n.size registry tag route b) (hfails : ∀ rank < n.size,
      ((b rank).program ⟨rank, n.size, registry rank⟩).Always (fun r => r.1 ≠ .ok ()) →
        (f rank).Always fun value => ¬ended value)
    {q : Pool α} (hq : Relation.ReflTransGen Pool.Step (.ofRanks n f) q)
    (hdone : ∀ task ∈ q.tasks, ∃ value, task.program = .done value ∧ ended value) :
    Countable n.size b := by
  apply countable_of_packs registry
  intro rank hrank hquits fault hencode
  have hstops := hfails rank hrank (program_unpacked h hrank hquits hencode)
  obtain ⟨value, hnot, hended⟩ := Pool.exists_ended hrank hstops hq hdone
  exact hnot hended

theorem countable_of_done (h : Prepared n.size registry tag route b)
    {q : Pool (Except Fault Unit × LinkTable G A)}
    (hq : Relation.ReflTransGen Pool.Step (beginning n registry b) q)
    (hdone : ∀ task ∈ q.tasks, ∃ r, task.program = .done r ∧ r.1 = .ok ()) :
    Countable n.size b :=
  countable_of_ended h (fun _ _ hstops => hstops) hq hdone

/-- If all ranks end well it is with these tables, and they do unless a count does not fit. -/
structure Yields (n : Network) (registry : Nat → Registry) (b : Nat → Rebuild G A)
    (tables : Nat → LinkTable G A) : Prop where
  ofDone : ∀ q, Relation.ReflTransGen Pool.Step (beginning n registry b) q →
    (∀ task ∈ q.tasks, ∃ r, task.program = .done r ∧ r.1 = .ok ()) →
      q.results = (List.range n.size).map (fun rank => (.ok (), tables rank)) ∧
      q.network.traffic = n.traffic
  inevitable : Countable n.size b → (beginning n registry b).Inevitable fun q =>
    q.results = (List.range n.size).map (fun rank => (.ok (), tables rank)) ∧
      q.network.traffic = n.traffic

theorem yields_result [LawfulScalar G] [LawfulRole A] (h : Prepared n.size registry tag route b)
    (hclear : ∀ source < n.size, ∀ dest < n.size, n.channel source dest tag = []) :
    Yields n registry b (result route n.size b) := by
  have hinevitable : Countable n.size b → (beginning n registry b).Inevitable fun q =>
      q.results = (List.range n.size).map (fun rank => (.ok (), result route n.size b rank)) ∧
        q.network.traffic = n.traffic := by
    intro hfits
    obtain ⟨es, hconcludes⟩ := rebuild_concludes (t := n.traffic) (h.rebuilds hfits) hclear
    exact hconcludes.inevitable.mono fun q hq => ⟨hq.1, hq.2.2⟩
  constructor
  case ofDone =>
    intro q hq hdone
    have hend := (hinevitable (countable_of_done h hq hdone)).stops q hq
    exact hend.resolve_left
      (Pool.not_step_of_done fun task htask => (hdone task htask).imp fun _ h => h.1)
  case inevitable => exact hinevitable

variable [IsStrictTotalOrder G (· < ·)] [IsStrictTotalOrder A (· < ·)]

theorem exact_result (h : Prepared size registry tag route b) {rank k : Nat}
    (hrank : rank < size) (hne : k ≠ rank)
    (hk : k ∈ route.sources size rank ((b rank).neighbours rank)) :
    (b rank).Exact (b k) (result route size b rank) k := by
  apply exact_of_found
    (ordered_published (h.source rank hrank).ascending (h.dest rank hrank).ascending)
  rw [linksTo_result route size b hne, if_pos hk]

theorem publishes_result (h : Prepared size registry tag route b) {rank : Nat}
    (hrank : rank < size) {e : Nat × Links G A}
    (he : e ∈ (result route size b rank).links.entries) :
    (∀ l ∈ e.2.send, (b rank).ends.source.Publishes (b rank).ignorePublic l.localKey) ∧
      ∀ l ∈ e.2.receive, (b rank).ends.dest.Publishes (b rank).ignorePublic l.localKey := by
  obtain ⟨other, ownKeys, hfound⟩ := exists_found_of_mem_result route b he
  have hordered :=
    ordered_published (h.source rank hrank).ascending (h.dest rank hrank).ascending
  rw [Publication.found] at hfound
  split at hfound
  · cases hfound
  · rw [← Option.some.inj hfound]
    refine ⟨fun l hl => ?_, fun l hl => ?_⟩
    · rw [Publication.mem_send_linksWith hordered other.ordered_heard] at hl
      exact mem_source_published.mp hl.1
    · rw [Publication.mem_receive_linksWith hordered other.ordered_heard] at hl
      exact mem_destKeys_published.mp hl.1

end Rebuild

end HaloIndex
