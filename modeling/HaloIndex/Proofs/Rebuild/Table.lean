import HaloIndex.Proofs.Rebuild.Swap
import HaloIndex.Rebuild.Table

namespace HaloIndex

def Route.sources (route : Route) (size rank : Nat) (neighbours : RankSet) : List Nat :=
  match route with
  | .ring => (List.range' 1 (size - 1)).map (hop size · rank)
  | .neighbours => neighbours.keys

/-- What a rank brings to a rebuild. -/
structure Rebuild (G A : Type) where
  table : LinkTable G A
  ends : Endpoints G A
  ignorePublic : Bool

namespace Rebuild

variable {G A : Type}

def published (b : Rebuild G A) : Publication G A := .ofEndpoints b.ends b.ignorePublic

def neighbours (b : Rebuild G A) (rank : Nat) : RankSet := b.table.neighbours.erase rank

def wantsSelf (b : Rebuild G A) : Bool := !b.ends.isOne || b.table.settings.includeSelf

variable [Scalar G] [Role A] [LT G] [LT A] [DecidableEq G] [DecidableEq A] [DecidableLT G]
  [DecidableLT A]

def program (b : Rebuild G A) (s : Station) : Program (Except Fault Unit × LinkTable G A) :=
  b.table.rebuild s b.ends b.ignorePublic

def loopBack (b : Rebuild G A) (rank : Nat) : NatMap (Links G A) :=
  Publication.enter .empty rank
    (if b.wantsSelf then b.published.found b.published b.table.settings.includeSelf else none)

/-- The links to all ranks, given what every rank publishes. -/
def links (b : Rebuild G A) (route : Route) (size rank : Nat)
    (published : Nat → Publication G A) :
    NatMap (Links G A) :=
  b.published.hear published (route.sources size rank (b.neighbours rank)) (b.loopBack rank)

def settle (b : Rebuild G A) (rank : Nat) :
    Except Fault (NatMap (Links G A)) → Except Fault Unit × LinkTable G A
  | .error f => (.error f, { b.table with neighbours := b.neighbours rank }.clear)
  | .ok links => (.ok (), LinkTable.align
      { b.table with
        neighbours := b.neighbours rank
        links
        isShared := b.ends.isOne
        publicIgnored := b.ignorePublic }
      b.ends.source b.ends.dest)

end Rebuild

/-- Ranks that are ready to rebuild together on one route. -/
structure Rebuilds {G A : Type} [Scalar G] [Role A] (size : Nat)
    (registry : Nat → Registry) (tag : Tag) (route : Route) (b : Nat → Rebuild G A) : Prop where
  speaks : ∀ rank < size, (registry rank).SpeaksFully G
  sourceAtRest : ∀ rank < size, (b rank).ends.source.phase = .ground
  destAtRest : ∀ rank < size, (b rank).ends.dest.phase = .ground
  onRoute : ∀ rank < size,
    { (b rank).table with neighbours := (b rank).neighbours rank }.route size = .ok route
  tag : ∀ rank < size, (b rank).table.settings.rebuildTag = tag
  fits : ∀ rank < size, (size = 1 ∧ (b rank).wantsSelf = false) ∨
    (b rank).published.source.length ≤ Registry.maxCount ∧
      ((b rank).published.dest.getD []).length ≤ Registry.maxCount
  neighbourly : route = .neighbours →
    Neighbourly size fun rank => ((b rank).neighbours rank).keys

namespace Rebuild

theorem keys_neighbours_eq_nil {G A : Type} [Scalar G] [Role A]
    {registry : Nat → Registry} {tag : Tag} {b : Nat → Rebuild G A}
    (h : Rebuilds 1 registry tag .neighbours b) :
    ((b 0).neighbours 0).keys = [] := by
  apply List.eq_nil_iff_forall_not_mem.mpr
  intro peer hpeer
  have hlt := (h.neighbourly rfl).lt 0 Nat.zero_lt_one peer hpeer
  obtain ⟨e, he, rfl⟩ := List.mem_map.mp hpeer
  have hne := (List.mem_filter.mp he).2
  simp only [bne_iff_ne] at hne
  omega

variable {G A : Type} [Scalar G] [Role A] [LT G] [LT A] [DecidableEq G] [DecidableEq A]
  [DecidableLT G] [DecidableLT A]

/-- How the rebuild ends on a rank if it hears all that comes by on its route. -/
def ending (size : Nat) (b : Nat → Rebuild G A) (rank : Nat) :
    Except Fault Unit × LinkTable G A :=
  let t := { (b rank).table with neighbours := (b rank).neighbours rank }
  match t.route size with
  | .error f => (.error f, t)
  | .ok route =>
    (b rank).settle rank (.ok ((b rank).links route size rank fun k => (b k).published))

theorem ending_eq {size : Nat} {registry : Nat → Registry} {tag : Tag} {route : Route}
    {b : Nat → Rebuild G A} (h : Rebuilds size registry tag route b) {rank : Nat}
    (hrank : rank < size) :
    ending size b rank =
      (b rank).settle rank (.ok ((b rank).links route size rank fun k => (b k).published)) := by
  rw [ending, h.onRoute rank hrank]

def exchange (b : Rebuild G A) (s : Station) (tag : Tag) (route : Route) (message : List UInt8) :
    Talk (NatMap (Links G A)) :=
  match route with
  | .ring => b.published.circulate s tag s.origins message (b.loopBack s.rank)
  | .neighbours => b.published.swap s tag (b.neighbours s.rank).keys message (b.loopBack s.rank)

theorem program_eq {route : Route} (b : Rebuild G A) (s : Station)
    (hsource : b.ends.source.phase = .ground) (hdest : b.ends.dest.phase = .ground) (hroute :
      { b.table with neighbours := b.neighbours s.rank }.route s.size = .ok route) :
    b.program s = (LinkTable.collect s b.ends b.ignorePublic b.table.settings
      (b.neighbours s.rank)
      route).run >>= fun outcome => pure (b.settle s.rank outcome) := by
  rw [neighbours] at hroute
  simp only [program, LinkTable.rebuild, IndexSet.require, hsource, hdest, if_true, hroute]
  apply bind_congr
  intro outcome
  cases outcome <;> rfl

theorem collect_eq [LawfulScalar G] [LawfulRole A] (b : Rebuild G A) (s : Station)
    (route : Route) (hspeaks : s.registry.SpeaksFully G)
    (hquits : ¬(s.size = 1 ∧ b.wantsSelf = false)) {message : List UInt8}
    (hpack : b.published.encode s.registry = .ok message) :
    LinkTable.collect s b.ends b.ignorePublic b.table.settings (b.neighbours s.rank) route =
      b.exchange s b.table.settings.rebuildTag route message := by
  have hself :=
    Publication.linksFrom_encode hspeaks hpack b.published b.table.settings.includeSelf
  have hstays : ¬(decide (s.size = 1) && !b.wantsSelf) = true := by simpa using hquits
  rw [published] at hpack hself
  rw [wantsSelf] at hstays
  simp only [LinkTable.collect, if_neg hstays, hpack, Talk.ofExcept_bind]
  by_cases hwants : b.wantsSelf = true
  · have hback : b.loopBack s.rank = Publication.enter .empty s.rank
        (b.published.found b.published b.table.settings.includeSelf) := by
      rw [loopBack, if_pos hwants]
    rw [wantsSelf] at hwants
    simp only [hwants, if_true, hself, Talk.ofExcept_bind, exchange, hback]
    rfl
  · have hback : b.loopBack s.rank = Publication.enter .empty s.rank none := by
      rw [loopBack, if_neg hwants]
    rw [wantsSelf] at hwants
    simp only [hwants, Bool.false_eq_true, if_false, exchange, hback]
    rfl

theorem collect_unpacked (b : Rebuild G A) (s : Station) (route : Route)
    (hstays : ¬(s.size = 1 ∧ b.wantsSelf = false)) {f : Fault}
    (hpack : b.published.encode s.registry = .error f) :
    (LinkTable.collect s b.ends b.ignorePublic b.table.settings
      (b.neighbours s.rank) route).run =
      .done (.error f) := by
  have hquits : ¬(decide (s.size = 1) && !b.wantsSelf) = true := by simpa using hstays
  rw [published] at hpack
  rw [wantsSelf] at hquits
  simp only [LinkTable.collect, if_neg hquits, hpack]
  rfl

section Concert

variable {t : Traffic} {registry : Nat → Registry} {tag : Tag} {route : Route}
  {b : Nat → Rebuild G A}

omit [LT G] [LT A] [DecidableEq G] [DecidableEq A] [DecidableLT G] [DecidableLT A] in
theorem exists_message {size : Nat} (h : Rebuilds size registry tag route b) :
    ∃ message : Nat → List UInt8, ∀ rank < size, ¬(size = 1 ∧ (b rank).wantsSelf = false) →
      (b rank).published.encode (registry rank) = .ok (message rank) := by
  have hmessage : ∀ rank, ∃ bytes, rank < size → ¬(size = 1 ∧ (b rank).wantsSelf = false) →
      (b rank).published.encode (registry rank) = .ok bytes := by
    intro rank
    by_cases hrank : rank < size ∧ ¬(size = 1 ∧ (b rank).wantsSelf = false)
    · obtain ⟨hsource, hdest⟩ := (h.fits rank hrank.1).resolve_left hrank.2
      obtain ⟨bytes, hbytes⟩ := Publication.encode_ok (h.speaks rank hrank.1) _ hsource hdest
      exact ⟨bytes, fun _ _ => hbytes⟩
    · exact ⟨[], fun hlt hstays => absurd ⟨hlt, hstays⟩ hrank⟩
  exact Classical.axiomOfChoice hmessage

theorem links_alone (h : Rebuilds 1 registry tag route b) (hself : (b 0).wantsSelf = false)
    (published : Nat → Publication G A) : (b 0).links route 1 0 published = .empty := by
  have hsources : route.sources 1 0 ((b 0).neighbours 0) = [] := by
    cases route with
    | ring => rfl
    | neighbours => exact keys_neighbours_eq_nil h
  rw [links, hsources, loopBack, hself]
  rfl

variable [LawfulScalar G] [LawfulRole A]

theorem exchange_concludes (h : Rebuilds t.size registry tag route b) (hclear : t.Clear tag)
    {message : Nat → List UInt8}
    (hpack : ∀ rank < t.size, (b rank).published.encode (registry rank) = .ok (message rank)) :
    ∃ es, Concludes t (fun rank =>
      ((b rank).exchange (Station.among t.size registry rank) tag route
        (message rank)).run) es
      fun rank => .ok ((b rank).links route t.size rank fun k => (b k).published) := by
  cases route with
  | ring =>
    obtain ⟨es, hring⟩ := Publication.circulate_concludes hclear h.speaks hpack (t.size - 1) 0
      (by omega) fun rank => (b rank).loopBack rank
    refine ⟨es, hring.congr (fun rank hrank => ?_) fun _ _ => rfl⟩
    rw [Publication.hop_zero hrank]
    rfl
  | neighbours => exact Publication.swap_concludes hclear h.speaks hpack (h.neighbourly rfl) _

theorem collect_concludes (h : Rebuilds t.size registry tag route b) (hclear : t.Clear tag) :
    ∃ es, Concludes t (fun rank =>
      (LinkTable.collect (Station.among t.size registry rank) (b rank).ends
        (b rank).ignorePublic (b rank).table.settings ((b rank).neighbours rank) route).run) es
      fun rank => .ok ((b rank).links route t.size rank fun k => (b k).published) := by
  by_cases hquits : t.size = 1 ∧ (b 0).wantsSelf = false
  · obtain ⟨hsize, hself⟩ := hquits
    refine ⟨_, .of_done fun rank hrank => ?_⟩
    rw [hsize] at h hrank ⊢
    obtain rfl : rank = 0 := Nat.lt_one_iff.mp hrank
    rw [links_alone h hself, LinkTable.collect]
    rw [wantsSelf] at hself
    simp only [hself]
    rfl
  · have hstays : ∀ rank < t.size, ¬(t.size = 1 ∧ (b rank).wantsSelf = false) := by
      rintro rank hrank ⟨hsize, hself⟩
      obtain rfl : rank = 0 := Nat.lt_one_iff.mp (hsize ▸ hrank)
      exact hquits ⟨hsize, hself⟩
    obtain ⟨message, hmessage⟩ := exists_message h
    have hpack : ∀ rank < t.size,
        (b rank).published.encode (registry rank) = .ok (message rank) :=
      fun rank hrank => hmessage rank hrank (hstays rank hrank)
    obtain ⟨es, hexchange⟩ := exchange_concludes h hclear hpack
    refine ⟨es, hexchange.congr (fun rank hrank => ?_) fun _ _ => rfl⟩
    have hcollect := collect_eq (b rank) (Station.among t.size registry rank) route
      (h.speaks rank hrank) (hstays rank hrank) (hpack rank hrank)
    rw [h.tag rank hrank] at hcollect
    rw [hcollect]

theorem rebuild_concludes (h : Rebuilds t.size registry tag route b) (hclear : t.Clear tag) :
    ∃ es, Concludes t (fun rank =>
      (b rank).program (Station.among t.size registry rank)) es fun rank =>
      (b rank).settle rank
      (.ok ((b rank).links route t.size rank fun k => (b k).published)) := by
  obtain ⟨es, hcollect⟩ := collect_concludes h hclear
  have hsettle := hcollect.map fun rank outcome => (b rank).settle rank outcome
  refine ⟨_, hsettle.congr (fun rank hrank => ?_) fun _ _ => rfl⟩
  exact (program_eq (b rank) _ (h.sourceAtRest rank hrank) (h.destAtRest rank hrank)
    (h.onRoute rank hrank)).symm

end Concert

end Rebuild

end HaloIndex
