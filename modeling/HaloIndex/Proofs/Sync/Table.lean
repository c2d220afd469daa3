import HaloIndex.Proofs.Link.Table
import HaloIndex.Proofs.Sync.Addressing
import HaloIndex.Proofs.Sync.Announcement
import HaloIndex.Proofs.Sync.Discovery
import HaloIndex.Proofs.Transport.Outcome
import HaloIndex.Proofs.Transport.Round
import HaloIndex.Sync.Table

namespace HaloIndex

variable {G A : Type}

/-- What a rank brings to a sync. -/
structure Sync (G A : Type) where
  table : LinkTable G A
  set : IndexSet G A
  numbering : Numbering G

namespace LinkTable

variable [LT G] [LT A] [DecidableEq G] [DecidableLT G] [DecidableLT A] {t : LinkTable G A}
  {set : IndexSet G A}

theorem firstDangling_eq_none_iff : t.firstDangling set = none ↔
    ∀ rank, ∀ l ∈ t.sendTo rank, (set.positionOf l.localKey).isSome := by
  simp only [firstDangling, List.findSome?_eq_none_iff, Option.map_eq_none_iff,
    List.find?_eq_none, Bool.not_eq_true', Bool.not_eq_false, mem_sendTo, Prod.forall]
  constructor
  · rintro h rank l ⟨links, hlinks, hl⟩
    exact h rank links hlinks l hl
  · intro h rank links hlinks l hl
    exact h rank l ⟨links, hlinks, hl⟩

theorem checkSyncable_eq_ok_iff [Scalar G] [DecidableEq A] : t.checkSyncable set = .ok () ↔
    set.phase = .ground ∧ t.isShared = true ∧ t.isSynced set set = true ∧
      ∀ rank, ∀ l ∈ t.sendTo rank, (set.positionOf l.localKey).isSome := by
  rw [← firstDangling_eq_none_iff, checkSyncable, IndexSet.require, checkSynced]
  by_cases hphase : set.phase = .ground
  · by_cases hshared : t.isShared = true
    · by_cases hsynced : t.isSynced set set = true
      · cases hdangling : t.firstDangling set with
        | none => simp [hphase, hshared, hsynced]; rfl
        | some e =>
          simp [hphase, hshared, hsynced]
          intro hok
          cases hok
      · simp [hphase, hshared, hsynced]
        intro hok
        cases hok
    · simp [hphase, hshared]
      intro hok
      cases hok
  · simp [hphase]
    intro hok
    cases hok

end LinkTable

namespace Sync

def known (b : Sync G A) : NatMap (List (Link G A)) := b.table.links.map Links.send

def peers (b : Sync G A) (own : Nat) : List Nat := (b.known.erase own).keys

def start (b : Sync G A) : Discovery G A := ⟨{ b.set with phase := .resize }, b.known, []⟩

theorem mem_peers {b : Sync G A} {own rank : Nat} :
    rank ∈ b.peers own ↔ rank ≠ own ∧ (b.table.linksTo rank).isSome := by
  rw [peers, NatMap.mem_keys, NatMap.get?_erase, known, NatMap.get?_map]
  split
  next h => simp [h]
  next h => simp [h, LinkTable.linksTo]

theorem linksTo_start (b : Sync G A) (rank : Nat) :
    b.start.linksTo rank = b.table.sendTo rank := by
  rw [Discovery.linksTo, start, known, NatMap.get?_map]
  rfl

variable [Scalar G] [Role A] [LT G] [LT A] [DecidableEq G] [DecidableEq A] [DecidableLT G]
  [DecidableLT A]

def program (b : Sync G A) (s : Station) (settings : SyncSettings) : Program (SyncResult G A) :=
  b.table.sync s b.set settings b.numbering

def told (b : Sync G A) (rank : Nat) : List (Announcement G A) :=
  (Announcement.scan b.set.holdings (.ofLists b.known.entries)).filter (·.isFor rank)

def hear (b : Nat → Sync G A) (rank peer : Nat) (d : Discovery G A) : Discovery G A :=
  (d.adoptAll rank peer (b rank).numbering ((b peer).told rank)).2

def found (b : Nat → Sync G A) (rank : Nat) : Discovery G A :=
  ((b rank).peers rank).foldl (fun d peer => hear b rank peer d) (b rank).start

def programBy (build : Build) (b : Sync G A) (s : Station) (settings : SyncSettings) :
    Program (SyncResult G A) := b.table.syncBy build s b.set settings b.numbering

def settleBy (build : Build) (b : Sync G A) (outcome : Except Fault Unit) (d : Discovery G A) :
    SyncResult G A :=
  match outcome with
  | .error f => ⟨.error f, d.set.abortResize, b.table.clear, d.asked⟩
  | .ok () =>
    match d.set.commitBy build with
    | (.error f, set) => ⟨.error f, set, b.table, d.asked⟩
    | (.ok (), set) =>
      let table := { b.table with links := d.links.map .shared, isShared := true }.align set set
      ⟨build.assert "IndicesSyncer::sync" table.validate, set, table, d.asked⟩

def settle (b : Sync G A) (outcome : Except Fault Unit) (d : Discovery G A) : SyncResult G A :=
  match outcome with
  | .error f => ⟨.error f, d.set.abortResize, b.table.clear, d.asked⟩
  | .ok () =>
    match d.set.commit with
    | (.error f, set) => ⟨.error f, set, b.table, d.asked⟩
    | (.ok (), set) =>
      let table := { b.table with links := d.links.map .shared, isShared := true }.align set set
      ⟨.ok (), set, table, d.asked⟩

/-- How a rank ends that was told all that its peers have to tell. -/
def ending (b : Nat → Sync G A) (rank : Nat) : SyncResult G A :=
  (b rank).settle (.ok ()) (found b rank)

theorem programBy_eq (build : Build) {b : Sync G A}
    (hcheck : b.table.checkSyncable b.set = .ok ()) (s : Station) (settings : SyncSettings) :
    b.programBy build s settings = (Exchange.round settings.tag
        ((b.peers s.rank).map fun peer => (peer, Announcement.encode s.registry (b.told peer)))
        (LinkTable.takeAnnouncements s settings.tag b.numbering) b.start) >>= fun r =>
      pure (b.settleBy build r.1 r.2) := by
  have hphase := (LinkTable.checkSyncable_eq_ok_iff.mp hcheck).1
  have hopen : afterCheck (b.table.checkSyncable b.set) b.set b.set.beginResize =
      (.ok (), { b.set with phase := .resize }) := by
    rw [hcheck]
    exact IndexSet.beginResize_eq hphase
  have hentries : (Announcement.outgoing s.rank b.set (b.table.links.map Links.send)).entries =
      (b.peers s.rank).map fun rank => (rank, b.told rank) := by
    rw [Announcement.entries_outgoing, peers, NatMap.keys, List.map_map]
    rfl
  simp only [programBy, LinkTable.syncBy, hopen, hentries, List.map_map]
  apply bind_congr
  rintro ⟨outcome, d⟩
  cases outcome with
  | error f => rfl
  | ok =>
    simp only [settleBy]
    rcases d.set.commitBy build with ⟨committed, set⟩
    cases committed <;> rfl

theorem program_eq {b : Sync G A} (hcheck : b.table.checkSyncable b.set = .ok ()) (s : Station)
    (settings : SyncSettings) :
    b.program s settings = (Exchange.round settings.tag
        ((b.peers s.rank).map fun peer => (peer, Announcement.encode s.registry (b.told peer)))
        (LinkTable.takeAnnouncements s settings.tag b.numbering) b.start) >>= fun r =>
      pure (b.settle r.1 r.2) := programBy_eq .plain hcheck s settings

/-- What is left to be done to the set after the round of messages is the commit. -/
theorem set_under_programBy (build : Build) {b : Sync G A}
    (hcheck : b.table.checkSyncable b.set = .ok ()) (s : Station) (settings : SyncSettings)
    (answer : (r : Request) → r.Answer) {r : Except Fault Unit × Discovery G A}
    (hround : (Exchange.round settings.tag
      ((b.peers s.rank).map fun peer => (peer, Announcement.encode s.registry (b.told peer)))
      (LinkTable.takeAnnouncements s settings.tag b.numbering) b.start).under answer = r)
    {set : IndexSet G A} (hheard : r.1 = .ok ()) (hset : r.2.set = set) :
    ((b.programBy build s settings).under answer).set = (set.commitBy build).2 := by
  obtain ⟨outcome, d⟩ := r
  cases hheard
  cases hset
  rw [programBy_eq build hcheck, Program.under_bind, hround]
  change (b.settleBy build (.ok ()) d).set = _
  rw [settleBy]
  rcases d.set.commitBy build with ⟨committed, set⟩
  cases committed <;> rfl

end Sync

/-- Ranks that are ready to sync together. -/
structure Syncs [Scalar G] [LT G] [LT A] [DecidableEq G] [DecidableEq A] [DecidableLT G]
    [DecidableLT A] (size : Nat) (b : Nat → Sync G A) : Prop where
  checked : ∀ rank < size, (b rank).table.checkSyncable (b rank).set = .ok ()
  inRange : ∀ rank < size, ∀ other, ((b rank).table.linksTo other).isSome → other < size
  symmetric : ∀ rank < size, ∀ other < size, rank ≠ other →
    ((b rank).table.linksTo other).isSome → ((b other).table.linksTo rank).isSome

namespace Syncs

variable [Scalar G] [LT G] [LT A] [DecidableEq G] [DecidableEq A] [DecidableLT G] [DecidableLT A]
  {size : Nat} {b : Nat → Sync G A}

theorem of_keys (hchecked : ∀ rank < size, (b rank).table.checkSyncable (b rank).set = .ok ())
    (hlists : ∀ rank < size, ∀ other ∈ (b rank).table.links.keys, other < size ∧
      (rank ≠ other → rank ∈ (b other).table.links.keys)) : Syncs size b := by
  constructor
  case checked => exact hchecked
  case inRange =>
    intro rank hrank other hlisted
    exact (hlists rank hrank other (NatMap.mem_keys.mpr hlisted)).1
  case symmetric =>
    intro rank hrank other _ hne hlisted
    exact NatMap.mem_keys.mp ((hlists rank hrank other (NatMap.mem_keys.mpr hlisted)).2 hne)

theorem neighbourly (h : Syncs size b) : Neighbourly size fun rank => (b rank).peers rank := by
  refine ⟨fun rank _ => NatMap.nodup_keys _, fun rank hrank peer hpeer => ?_,
    fun rank hrank peer hpeer => ?_⟩
  all_goals obtain ⟨hne, hlisted⟩ := Sync.mem_peers.mp hpeer
  · exact h.inRange rank hrank peer hlisted
  · have hlt := h.inRange rank hrank peer hlisted
    exact Sync.mem_peers.mpr ⟨hne.symm, h.symmetric rank hrank peer hlt hne.symm hlisted⟩

end Syncs

namespace Sync

variable [Scalar G] [Role A] [LT G] [LT A] [DecidableEq G] [DecidableEq A] [DecidableLT G]
  [DecidableLT A] {t : Traffic} {registry : Nat → Registry} {settings : SyncSettings}
  {b : Nat → Sync G A}

def Packs (size : Nat) (registry : Nat → Registry) (b : Nat → Sync G A) : Prop :=
  ∀ rank < size, ∀ peer ∈ (b rank).peers rank,
    ∃ bytes, Announcement.encode (registry rank) ((b rank).told peer) = .ok bytes

theorem Packs.of_isOk {size : Nat}
    (h : ∀ rank < size, ∀ peer ∈ (b rank).table.links.keys, peer ≠ rank →
    (Announcement.encode (registry rank) ((b rank).told peer)).isOk = true) :
    Packs size registry b := by
  intro rank hrank peer hpeer
  obtain ⟨hne, hlisted⟩ := mem_peers.mp hpeer
  have hok := h rank hrank peer (NatMap.mem_keys.mpr hlisted) hne
  cases hencode : Announcement.encode (registry rank) ((b rank).told peer) with
  | error f =>
    rw [hencode] at hok
    cases hok
  | ok bytes => exact ⟨bytes, rfl⟩

def beginning (n : Network) (registry : Nat → Registry) (settings : SyncSettings)
    (b : Nat → Sync G A) :
    Pool (SyncResult G A) :=
  .ofRanks n fun rank => (b rank).program ⟨rank, n.size, registry rank⟩ settings

theorem program_stops {size : Nat} (h : Syncs size b) {rank : Nat} (hrank : rank < size)
    {s : Station} (hs : s.rank = rank) (settings : SyncSettings) {peer : Nat}
    (hpeer : peer ∈ (b rank).peers rank) {f : Fault}
    (hpack : Announcement.encode s.registry ((b rank).told peer) = .error f) :
    ((b rank).program s settings).Always fun r => r.outcome ≠ .ok () := by
  rw [program_eq (h.checked rank hrank), hs]
  have hmem : (peer, .error f) ∈ ((b rank).peers rank).map fun peer =>
      (peer, Announcement.encode s.registry ((b rank).told peer)) :=
    List.mem_map.mpr ⟨peer, hpeer, by rw [hpack]⟩
  apply (Exchange.round_stops hmem _ _).bind
  intro r hr
  obtain ⟨outcome, d⟩ := r
  cases outcome with
  | ok => exact absurd rfl hr
  | error f => exact nofun

theorem packs_of_done {n : Network} (hready : Syncs n.size b) {q : Pool (SyncResult G A)}
    (hq : Relation.ReflTransGen Pool.Step (beginning n registry settings b) q)
    (hdone : ∀ task ∈ q.tasks, ∃ r, task.program = .done r ∧ r.outcome = .ok ()) :
    Packs n.size registry b := by
  intro rank hrank peer hpeer
  cases hencode : Announcement.encode (registry rank) ((b rank).told peer) with
  | ok bytes => exact ⟨bytes, rfl⟩
  | error f =>
    have hstops :=
      program_stops hready hrank (s := ⟨rank, n.size, registry rank⟩) rfl settings hpeer
      hencode
    obtain ⟨r, hfailed, hok⟩ := Pool.exists_ended hrank hstops hq hdone
    exact absurd hok hfailed

variable [IsStrictTotalOrder G (· < ·)] [IsStrictTotalOrder A (· < ·)] [LawfulScalar G]
  [LawfulRole A]

theorem path_takeAnnouncements {s : Station} (hspeaks : s.registry.Speaks G) {r : Registry}
    {as : List (Announcement G A)} {bytes : List UInt8}
    (hpack : Announcement.encode r as = .ok bytes) (tag : Tag) (numbering : Numbering G)
    (peer : Nat) {d : Discovery G A} (hphase : d.set.phase = .resize) :
    (LinkTable.takeAnnouncements s tag numbering peer d).Path
    (Exchange.taking false tag peer bytes)
      (.done (.ok (), (d.adoptAll s.rank peer numbering as).2)) := by
  obtain ⟨hadopt, -⟩ := (Discovery.adoptAll_adopts s.rank peer numbering as).ok d hphase
  have hreceive : (Talk.receive peer tag).run.Path [.received peer tag bytes]
      (.done (.ok bytes)) :=
    .ask (.refl _)
  rw [LinkTable.takeAnnouncements, ← hadopt, ← List.append_nil (Exchange.taking ..)]
  apply hreceive.andThen
  simp only [Announcement.decode_encode hspeaks hpack]
  exact .refl _

variable (settings)

/-- In every order of the ranks, each of them comes to its end with all that it was told. -/
theorem sync_concludes (h : Syncs t.size b) (hclear : t.Clear settings.tag)
    (hspeaks : ∀ rank < t.size, (registry rank).Speaks G) (hpack : Packs t.size registry b) :
    ∃ es, Concludes t (fun rank => (b rank).program ⟨rank, t.size, registry rank⟩ settings) es
      (ending b) := by
  have hmessage : ∀ pair : Nat × Nat, ∃ bytes, pair.1 < t.size →
      pair.2 ∈ (b pair.1).peers pair.1 →
      Announcement.encode (registry pair.1) ((b pair.1).told pair.2) = .ok bytes := by
    rintro ⟨rank, peer⟩
    by_cases hpeer : rank < t.size ∧ peer ∈ (b rank).peers rank
    · obtain ⟨bytes, hbytes⟩ := hpack rank hpeer.1 peer hpeer.2
      exact ⟨bytes, fun _ _ => hbytes⟩
    · exact ⟨[], fun hrank hin => absurd ⟨hrank, hin⟩ hpeer⟩
  obtain ⟨message, hmessage⟩ := Classical.axiomOfChoice hmessage
  have hneighbours := h.neighbourly
  have htake : ∀ rank < t.size, ∀ peer ∈ (b rank).peers rank, ∀ d : Discovery G A,
      d.set.phase = .resize → (hear b rank peer d).set.phase = .resize ∧
        (LinkTable.takeAnnouncements ⟨rank, t.size, registry rank⟩ settings.tag
          (b rank).numbering
          peer d).Path (Exchange.taking false settings.tag peer (message (peer, rank)))
          (.done (.ok (), hear b rank peer d)) := by
    intro rank hrank peer hpeer d hphase
    have hbytes := hmessage (peer, rank) (hneighbours.lt rank hrank peer hpeer)
      (hneighbours.symm rank hrank peer hpeer)
    constructor
    · exact ((Discovery.adoptAll_adopts rank peer (b rank).numbering _).ok d hphase).2
    · exact path_takeAnnouncements (s := ⟨rank, t.size, registry rank⟩)
        (hspeaks rank hrank) hbytes
        _ _ _ hphase
  have hround := Exchange.round_concludes hneighbours hclear htake (fun rank => (b rank).start)
    fun _ _ => rfl
  have hsettle := hround.map fun rank r => (b rank).settle r.1 r.2
  refine ⟨_, hsettle.congr (fun rank hrank => ?_) fun _ _ => rfl⟩
  rw [program_eq (h.checked rank hrank)]
  have houtgoing : ∀ peer ∈ (b rank).peers rank,
      (peer, Except.ok (message (rank, peer))) =
        (peer, Announcement.encode (registry rank) ((b rank).told peer)) := by
    intro peer hpeer
    rw [hmessage (rank, peer) hrank hpeer]
  rw [List.map_congr_left houtgoing]

end Sync

end HaloIndex
