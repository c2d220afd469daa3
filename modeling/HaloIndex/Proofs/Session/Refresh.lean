import HaloIndex.Proofs.Rebuild.OneSet
import HaloIndex.Proofs.Sync.Idle
import HaloIndex.Proofs.Transport.Prefix
import Mathlib.Data.List.Permutation

namespace HaloIndex

/-- A rank rebuilds its table, changes its set and the table, and syncs them. -/
structure Refresh (G A : Type) where
  rebuild : Rebuild G A
  change : LinkTable G A → Except Fault (IndexSet G A × LinkTable G A)
  numbering : Numbering G

namespace Refresh

variable {G A : Type} [Scalar G] [Role A] [LT G] [LT A] [DecidableEq G] [DecidableEq A]
  [DecidableLT G] [DecidableLT A]

def goOn (f : Refresh G A) (settings : SyncSettings) (s : Station)
    (r : Except Fault Unit × LinkTable G A) :
    Program (Except Fault Unit × SyncResult G A) :=
  match f.change r.2 with
  | .error fault => return (r.1, ⟨.error fault, f.rebuild.ends.source, r.2, []⟩)
  | .ok (set, table) => do
    let result ← (Sync.mk table set f.numbering).program s settings
    return (r.1, result)

def plain (b : Rebuild G A) (numbering : Numbering G) : Refresh G A :=
  ⟨b, fun table => .ok (b.ends.source, table), numbering⟩

def program (f : Refresh G A) (settings : SyncSettings) (s : Station) :
    Program (Except Fault Unit × SyncResult G A) :=
  f.rebuild.program s >>= f.goOn settings s

theorem goOn_keeps (f : Refresh G A) (settings : SyncSettings) (s : Station)
    (r : Except Fault Unit × LinkTable G A) :
    (f.goOn settings s r).Always fun r' => r'.1 = r.1 := by
  rw [goOn]
  split
  · rfl
  · apply (Program.always_of_forall (P := fun _ => True) (fun _ => trivial) _).bind
    exact fun _ _ => rfl

def beginning (n : Network) (registry : Nat → Registry) (settings : SyncSettings)
    (f : Nat → Refresh G A) :
    Pool (Except Fault Unit × SyncResult G A) :=
  .ofRanks n fun rank => (f rank).program settings ⟨rank, n.size, registry rank⟩

/-- This is what the ranks bring to the sync when their rebuilds have ended with these tables. -/
structure Brings (size : Nat) (tables : Nat → LinkTable G A) (f : Nat → Refresh G A)
    (c : Nat → Sync G A) :
    Prop where
  changed : ∀ rank < size, (f rank).change (tables rank) = .ok ((c rank).set, (c rank).table)
  numbering : ∀ rank < size, (c rank).numbering = (f rank).numbering
  syncs : Syncs size c

theorem Brings.goOn_eq {size : Nat} {tables : Nat → LinkTable G A} {f : Nat → Refresh G A}
    {c : Nat → Sync G A} (h : Brings size tables f c) {rank : Nat} (hrank : rank < size)
    (settings : SyncSettings) (s : Station) :
    (f rank).goOn settings s (.ok (), tables rank) =
      (c rank).program s settings >>= fun result => pure (.ok (), result) := by
  rw [goOn, h.changed rank hrank, ← h.numbering rank hrank]

variable {n : Network} {registry : Nat → Registry} {tag : Tag} {route : Route}
  {settings : SyncSettings} {f : Nat → Refresh G A} {c : Nat → Sync G A}

theorem countable_of_done (h : Prepared n.size registry tag route fun rank => (f rank).rebuild)
    {q : Pool (Except Fault Unit × SyncResult G A)}
    (hq : Relation.ReflTransGen Pool.Step (beginning n registry settings f) q)
    (hdone : ∀ task ∈ q.tasks, ∃ r, task.program = .done r ∧ r.1 = .ok () ∧
      r.2.outcome = .ok ()) :
    Countable n.size fun rank => (f rank).rebuild := by
  apply Rebuild.countable_of_ended h _ hq hdone
  intro rank _ hstops
  apply hstops.bind
  intro r hr
  exact ((f rank).goOn_keeps settings _ r).mono fun r' he hended => hr (he ▸ hended.1)

variable [LawfulScalar G] [LawfulRole A]

theorem packs_of_done (h : Prepared n.size registry tag route fun rank => (f rank).rebuild)
    (hbrings : Brings n.size (Rebuild.result route n.size fun rank => (f rank).rebuild) f c)
    (hclear : n.traffic.Clear tag) {q : Pool (Except Fault Unit × SyncResult G A)}
    (hq : Relation.ReflTransGen Pool.Step (beginning n registry settings f) q)
    (hdone : ∀ task ∈ q.tasks, ∃ r, task.program = .done r ∧ r.1 = .ok () ∧
      r.2.outcome = .ok ()) :
    Sync.Packs n.size registry c := by
  intro rank hrank peer hpeer
  cases hencode : Announcement.encode (registry rank) ((c rank).told peer) with
  | ok bytes => exact ⟨bytes, rfl⟩
  | error fault =>
    -- The rebuilds end as they should, so the sync does meet the message that is too large.
    obtain ⟨es, hconcludes⟩ := Rebuild.rebuild_concludes (t := n.traffic)
      (h.rebuilds (countable_of_done h hq hdone)) hclear
    have hstops :=
      Sync.program_stops hbrings.syncs hrank (s := ⟨rank, n.size, registry rank⟩) rfl settings
      hpeer hencode
    have hfails : ((f rank).goOn settings ⟨rank, n.size, registry rank⟩
        (.ok (), Rebuild.result route n.size (fun rank => (f rank).rebuild) rank)).Always
          fun r => r.2.outcome ≠ .ok () := by
      rw [hbrings.goOn_eq hrank]
      exact hstops.bind fun r hr => hr
    obtain ⟨r, hfailed, -, hok⟩ := hconcludes.exists_ended hrank hfails hq hdone
    exact absurd hok hfailed

/-- However the ranks are interleaved, if all rebuilds and syncs end well they end with these
results; and they do end well unless a count does not fit or a message is too large to be
packed. -/
structure Yields (n : Network) (registry : Nat → Registry) (settings : SyncSettings)
    (f : Nat → Refresh G A) (c : Nat → Sync G A) (results : Nat → SyncResult G A) : Prop where
  ofDone : ∀ q, Relation.ReflTransGen Pool.Step (beginning n registry settings f) q →
    (∀ task ∈ q.tasks, ∃ r, task.program = .done r ∧ r.1 = .ok () ∧ r.2.outcome = .ok ()) →
      q.results = (List.range n.size).map (fun rank => (.ok (), results rank)) ∧
      q.network.traffic = n.traffic
  inevitable : Countable n.size (fun rank => (f rank).rebuild) → Sync.Packs n.size registry c →
    (beginning n registry settings f).Inevitable fun q =>
      q.results = (List.range n.size).map (fun rank => (.ok (), results rank)) ∧
        q.network.traffic = n.traffic

omit [LawfulScalar G] [LawfulRole A] in
theorem Yields.congr {results results' : Nat → SyncResult G A}
    (h : Yields n registry settings f c results)
    (hsame : ∀ rank < n.size, results rank = results' rank) :
    Yields n registry settings f c results' := by
  have hmap : (List.range n.size).map
      (fun rank => ((.ok () : Except Fault Unit), results rank)) =
      (List.range n.size).map fun rank => (.ok (), results' rank) := by
    apply List.map_congr_left
    intro rank hrank
    rw [hsame rank (List.mem_range.mp hrank)]
  constructor
  case ofDone => exact fun q hq hdone => hmap ▸ h.ofDone q hq hdone
  case inevitable => exact fun hfits hpack => hmap ▸ h.inevitable hfits hpack

variable [IsStrictTotalOrder G (· < ·)] [IsStrictTotalOrder A (· < ·)]

theorem yields_ending (h : Prepared n.size registry tag route fun rank => (f rank).rebuild)
    (hbrings : Brings n.size (Rebuild.result route n.size fun rank => (f rank).rebuild) f c)
    (hclear : n.traffic.Clear tag) (hclear' : n.traffic.Clear settings.tag) :
    Yields n registry settings f c (Sync.ending c) := by
  have hinevitable : Countable n.size (fun rank => (f rank).rebuild) →
      Sync.Packs n.size registry c →
      (beginning n registry settings f).Inevitable fun q =>
        q.results = (List.range n.size).map (fun rank => (.ok (), Sync.ending c rank)) ∧
          q.network.traffic = n.traffic := by
    intro hfits hpack
    obtain ⟨es, hrebuild⟩ := Rebuild.rebuild_concludes (t := n.traffic) (h.rebuilds hfits) hclear
    obtain ⟨fs, hsync⟩ := Sync.sync_concludes (t := n.traffic) settings hbrings.syncs hclear'
      (fun rank hrank => (h.speaks rank hrank).1) hpack
    have hnext :=
      hsync.map fun _ result => ((.ok (), result) : Except Fault Unit × SyncResult G A)
    have hboth :=
      hrebuild.bind (g := fun rank => (f rank).goOn settings ⟨rank, n.size, registry rank⟩)
      (hnext.congr (fun rank hrank => (hbrings.goOn_eq hrank settings _).symm) fun _ _ => rfl)
    exact hboth.inevitable.mono fun q hq => ⟨hq.1, hq.2.2⟩
  constructor
  case ofDone =>
    intro q hq hdone
    have hend := (hinevitable (countable_of_done h hq hdone)
      (packs_of_done h hbrings hclear hq hdone)).stops q hq
    exact hend.resolve_left
      (Pool.not_step_of_done fun task htask => (hdone task htask).imp fun _ h => h.1)
  case inevitable => exact hinevitable

end Refresh

namespace Rebuild

variable {G A : Type} [LT G] [LT A] [DecidableEq G] [DecidableEq A] [DecidableLT G]
  [DecidableLT A]

def rebuilt (route : Route) (size : Nat) (b : Nat → Rebuild G A) (numbering : Nat → Numbering G)
    (rank : Nat) : Sync G A :=
  ⟨result route size b rank, (b rank).ends.source, numbering rank⟩

variable [Scalar G] [Role A] [IsStrictTotalOrder G (· < ·)] [IsStrictTotalOrder A (· < ·)]
  {size : Nat} {registry : Nat → Registry} {tag : Tag} {route : Route} {b : Nat → Rebuild G A}
  {rank : Nat}

theorem checkSyncable_result (h : Prepared size registry tag route b)
    (hsingle : Single size route b) (hrank : rank < size) :
    (result route size b rank).checkSyncable (b rank).ends.source = .ok () := by
  rw [LinkTable.checkSyncable_eq_ok_iff]
  have hsynced : (result route size b rank).isSynced (b rank).ends.source
      (b rank).ends.dest = true :=
    LinkTable.isSynced_align _ _ _
  rw [dest_eq_source (hsingle.one rank hrank)] at hsynced
  refine ⟨(h.source rank hrank).phase, hsingle.one rank hrank, hsynced, fun k l hl => ?_⟩
  rw [IndexSet.positionOf_isSome_iff (hsingle.wellFormed rank hrank).ascending]
  exact mem_keys_of_shows (published_of_mem_result h hsingle hrank hl).2.1

theorem grounded_rebuilt (h : Prepared size registry tag route b) (hsingle : Single size route b)
    (hrank : rank < size) (numbering : Nat → Numbering G) :
    Sync.Grounded size (fun rank => (b rank).Shows) (rebuilt route size b numbering) rank :=
  fun _ _ hl => published_of_mem_result h hsingle hrank hl

theorem thorough_rebuilt (h : Prepared size registry tag route b) (hsingle : Single size route b)
    (hrank : rank < size) (numbering : Nat → Numbering G) :
    Sync.Thorough size (fun rank => (b rank).Shows) (rebuilt route size b numbering) rank where
  keys _ hk := mem_keys_of_shows hk
  links _ hlt hne _ hlocal hremote :=
    (mem_sendTo_result_iff h hsingle hrank hlt hne).mpr ⟨hlocal, hremote⟩

theorem tidy_rebuilt (h : Prepared size registry tag route b) (hsingle : Single size route b)
    (hrank : rank < size) (numbering : Nat → Numbering G) :
    (rebuilt route size b numbering rank).Tidy :=
  ⟨hsingle.wellFormed rank hrank, ascending_result h hrank⟩

theorem syncs_rebuilt (h : Prepared size registry tag route b) (hsingle : Single size route b)
    (numbering : Nat → Numbering G) : Syncs size (rebuilt route size b numbering) where
  checked _ hrank := checkSyncable_result h hsingle hrank
  inRange rank hrank other hlisted := by
    obtain ⟨links, hlinks⟩ := Option.isSome_iff_exists.mp hlisted
    exact (exists_found_of_linksTo h hrank hlinks).1
  symmetric _ hrank _ hother hne hlisted := isSome_result_comm h hrank hother hne.symm hlisted

variable [LawfulScalar G] [LawfulRole A]

/-- However the ranks are interleaved, a sync after a rebuild with one set changes nothing: every
rank ends with the keys, slots and lists it had, without having asked for a slot, one revision
on. -/
theorem sync_after_rebuild {n : Network} (settings : SyncSettings)
    (h : Prepared n.size registry tag route b) (hsingle : Single n.size route b)
    (hclear : ∀ source < n.size, ∀ dest < n.size, n.channel source dest tag = [])
    (hclear' : ∀ source < n.size, ∀ dest < n.size, n.channel source dest settings.tag = [])
    (numbering : Nat → Numbering G) :
    Yields n registry b (result route n.size b) ∧
      Refresh.Yields n registry settings (fun rank => .plain (b rank) (numbering rank))
        (rebuilt route n.size b numbering) fun rank =>
          let set := { (b rank).ends.source with revision := (b rank).ends.source.revision + 1 }
          ⟨.ok (), set, (result route n.size b rank).align set set, []⟩ := by
  have hready := syncs_rebuilt h hsingle numbering
  have hyields := Refresh.yields_ending (f := fun rank => .plain (b rank) (numbering rank)) h
    ⟨fun _ _ => rfl, fun _ _ => rfl, hready⟩ hclear hclear'
  refine ⟨yields_result h hclear, hyields.congr fun rank hrank => ?_⟩
  have hknown : Sync.ToldKnown (rebuilt route n.size b numbering) rank := by
    apply (thorough_rebuilt h hsingle hrank numbering).toldKnown
    intro peer hpeer
    have hlt := hready.neighbourly.lt rank hrank peer hpeer
    exact ⟨hlt, grounded_rebuilt h hsingle hlt numbering⟩
  exact Sync.ending_of_known hready
    (fun rank hrank => tidy_rebuilt h hsingle hrank numbering) hrank
    (links_result_shared h hsingle hrank) hknown

/-- Three ranks that hold one identifier, the first of them in two roles, and that link to
themselves. -/
def threeHolders (rank : Nat) : Rebuild UInt64 MeshRole where
  table := { settings := { strategy := .ring, includeSelf := true } }
  ends := .one { holdings := match rank with
    | 0 => [⟨7, .valid 0 .owner true⟩, ⟨7, .valid 1 .ghost true⟩]
    | 1 => [⟨7, .valid 0 .overlap true⟩]
    | _ => [⟨7, .valid 3 .ghost false⟩, ⟨9, .valid 0 .owner false⟩] }
  ignorePublic := rank == 2

theorem prepared_threeHolders : Prepared 3 (fun _ => .basic) Tag.rebuild .ring threeHolders := by
  have hrest : ∀ rank < 3, (threeHolders rank).ends.source.AtRest := by
    intro rank hrank
    match rank with
    | 0 | 1 | 2 => exact ⟨rfl, by decide⟩
  exact ⟨fun _ _ => ⟨⟨rfl, rfl, rfl⟩, rfl⟩, hrest, hrest, fun _ _ => rfl, fun _ _ => rfl, nofun⟩

theorem single_threeHolders : Single 3 .ring threeHolders := by
  refine ⟨fun _ _ => rfl, fun rank hrank => ?_, nofun⟩
  match rank with
  | 0 | 1 | 2 => exact .of_settled (by decide) rfl rfl (by decide)

def rebuiltHolders : Nat → Sync UInt64 MeshRole :=
  rebuilt .ring 3 threeHolders fun _ => freshSlots

theorem packs_rebuiltHolders : Sync.Packs 3 (fun _ => .basic) rebuiltHolders := by
  have hready : Syncs 3 rebuiltHolders :=
    syncs_rebuilt prepared_threeHolders single_threeHolders _
  apply Sync.Packs.of_isOk
  intro rank hrank other hother _
  have hlt := hready.inRange rank hrank other (NatMap.mem_keys.mp hother)
  match rank, other with
  | 0, 0 | 0, 1 | 0, 2 | 1, 0 | 1, 1 | 1, 2 | 2, 0 | 2, 1 | 2, 2 => decide_cbv

theorem sync_after_rebuild_threeHolders :
    (Refresh.beginning (.quiet 3) (fun _ => .basic) {}
      fun rank => .plain (threeHolders rank) freshSlots).Inevitable fun q =>
        q.results = (List.range 3).map fun rank =>
          let set := { (threeHolders rank).ends.source with revision := 1 }
          (.ok (), ⟨.ok (), set, (result .ring 3 threeHolders rank).align set set, []⟩) := by
  obtain ⟨-, hyields⟩ := sync_after_rebuild (n := .quiet 3) {} prepared_threeHolders
    single_threeHolders (by decide) (by decide) fun _ => freshSlots
  exact (hyields.inevitable (by decide) packs_rebuiltHolders).mono fun q hq => hq.1

end Rebuild

end HaloIndex
