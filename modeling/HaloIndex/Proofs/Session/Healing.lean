import HaloIndex.Proofs.IndexSet.Window
import HaloIndex.Proofs.Session.Refresh
import HaloIndex.Proofs.Sync.Mutual

namespace HaloIndex

variable {G A : Type} [LT G] [LT A] [DecidableEq G] [DecidableEq A] [DecidableLT G]
  [DecidableLT A]

namespace Rebuild

/-- What the ranks bring to a sync when one of them has deleted holdings and pruned its table. -/
def cutBack (route : Route) (size p : Nat) (deletions : List (Deletion G))
    (b : Nat → Rebuild G A) (numbering : Nat → Numbering G) (rank : Nat) : Sync G A :=
  if rank = p then
    let set := (b rank).ends.source.remainder deletions
    ⟨(result route size b rank).pruned set, set, numbering rank⟩
  else rebuilt route size b numbering rank

variable {size p rank : Nat} {route : Route} {b : Nat → Rebuild G A}
  {deletions : List (Deletion G)} {numbering : Nat → Numbering G}

theorem cutBack_self : cutBack route size p deletions b numbering p =
    let set := (b p).ends.source.remainder deletions
    ⟨(result route size b p).pruned set, set, numbering p⟩ := if_pos rfl

theorem cutBack_of_ne (h : rank ≠ p) :
    cutBack route size p deletions b numbering rank = rebuilt route size b numbering rank :=
  if_neg h

theorem isSome_linksTo_cutBack (k : Nat) :
    ((cutBack route size p deletions b numbering rank).table.linksTo k).isSome =
      ((result route size b rank).linksTo k).isSome := by
  rw [cutBack]
  split
  · exact LinkTable.isSome_linksTo_pruned ..
  · rfl

theorem linksTo_result_own (hsingle : Single size route b)
    (hself : ∀ rank < size, (b rank).table.settings.includeSelf = false) (hrank : rank < size) :
    (result route size b rank).linksTo rank = none := by
  rw [linksTo_result_self route b (not_mem_sources_self hrank route (b rank)),
    loopBack, wantsSelf, hsingle.one rank hrank, hself rank hrank]
  rfl

theorem outward_cutBack (hsingle : Single size route b)
    (hself : ∀ rank < size, (b rank).table.settings.includeSelf = false) :
    Sync.Outward size (cutBack route size p deletions b numbering) := by
  intro rank hrank
  rw [← Option.not_isSome_iff_eq_none, isSome_linksTo_cutBack,
    linksTo_result_own hsingle hself hrank]
  exact Bool.false_ne_true

end Rebuild

variable [Scalar G]

namespace Sync

variable {size p : Nat} {known : Nat → Key G A → Prop} {b : Nat → Sync G A} {r : SyncResult G A}

/-- Whatever links a rank has left, after a sync with ranks that miss none of theirs it has a
link wherever a key it is known by meets one of another rank. -/
theorem mem_sendTo_settled_iff (h : Syncs size b) (hself : Outward size b) (hp : p < size)
    (hgrounded : ∀ rank < size, Grounded size known b rank)
    (hthorough : ∀ rank < size, rank ≠ p → Thorough size known b rank)
    (hr : Exact b p r) {q : Nat} {l : Link G A} : l ∈ r.table.sendTo q ↔
      q < size ∧ q ≠ p ∧ known p l.localKey ∧ known q l.remoteKey := by
  rw [hr.links]
  constructor
  · rintro (hl | ⟨peer, hpeer, htells⟩)
    · obtain ⟨hq, hknown⟩ := hgrounded p hp q l hl
      refine ⟨hq, ?_, hknown⟩
      rintro rfl
      have hlisted := LinkTable.isSome_of_mem_sendTo hl
      rw [hself q hp] at hlisted
      cases hlisted
    · have hlt := h.neighbourly.lt p hp peer hpeer
      exact (hgrounded peer hlt).of_tellsLink hlt (mem_peers.mp hpeer).1 htells
  · rintro ⟨hq, hne, hhere, hthere⟩
    have hback := (hthorough q hq hne).links p hp hne.symm l.reversed hthere hhere
    have hlisted := h.symmetric q hq p hp hne (LinkTable.isSome_of_mem_sendTo hback)
    refine .inr ⟨q, mem_peers.mpr ⟨hne, hlisted⟩, l.remoteRole, ?_, hback, .inl ⟨rfl, rfl⟩⟩
    exact (hthorough q hq hne).keys _ hthere

theorem mem_keys_settled_iff (h : Syncs size b) (hp : p < size)
    (hgrounded : ∀ rank < size, Grounded size known b rank)
    (hthorough : ∀ rank < size, rank ≠ p → Thorough size known b rank) (hr : Exact b p r)
    {k : Key G A} :
    k ∈ r.set.keys ↔ k ∈ (b p).set.keys ∨
      known p k ∧ ∃ q < size, q ≠ p ∧ ∃ role, known q ⟨k.globalId, role⟩ := by
  rw [hr.keys]
  apply or_congr_right
  constructor
  · rintro ⟨peer, hpeer, htells⟩
    have hlt := h.neighbourly.lt p hp peer hpeer
    obtain ⟨hhere, hthere⟩ := (hgrounded peer hlt).of_tellsKey htells
    exact ⟨hhere, peer, hlt, (mem_peers.mp hpeer).1, hthere⟩
  · rintro ⟨hhere, q, hq, hne, role, hthere⟩
    have hback :=
      (hthorough q hq hne).links p hp hne.symm ⟨k.globalId, role, k.role⟩ hthere hhere
    have hlisted := h.symmetric q hq p hp hne (LinkTable.isSome_of_mem_sendTo hback)
    exact ⟨q, mem_peers.mpr ⟨hne, hlisted⟩, role, (hthorough q hq hne).keys _ hthere, hback⟩

end Sync

variable [Role A]

def IndexSet.AddsPublic (s : IndexSet G A) : Prop := ∀ a ∈ s.additions, a.isPublic = true

theorem Discovery.addsPublic_hold (numbering : Numbering G) (key : Key G A) (d : Discovery G A)
    (h : d.set.AddsPublic) : (Discovery.hold numbering key d).2.set.AddsPublic := by
  rw [Discovery.hold]
  split
  next => exact h
  next =>
    apply IndexSet.add_keeps (P := IndexSet.AddsPublic) h
    intro _ _ a ha
    rcases List.mem_cons.mp ha with rfl | ha
    · rfl
    · exact h a ha

namespace Sync

variable {size p : Nat} {b : Nat → Sync G A}

theorem addsPublic_found {rank : Nat} (h : (b rank).set.AddsPublic) :
    (found b rank).set.AddsPublic := by
  have hhear : ∀ (peers : List Nat) (d : Discovery G A), d.set.AddsPublic →
      (peers.foldl (fun d peer => hear b rank peer d) d).set.AddsPublic := by
    intro peers
    induction peers with
    | nil => exact fun _ hd => hd
    | cons peer peers ih =>
      intro d hd
      exact ih _ (Discovery.adoptAll_keeps (Discovery.addsPublic_hold _) _ _ _ hd)
  exact hhear _ (b rank).start h

variable [IsStrictTotalOrder G (· < ·)] [IsStrictTotalOrder A (· < ·)]

theorem exists_ending (h : Syncs size b) (htidy : ∀ rank < size, (b rank).Tidy) (hp : p < size) :
    ∃ set, ∃ links : NatMap (List (Link G A)), ending b p = ⟨.ok (), set,
      { (b p).table with
        links := links.map .shared, isShared := true }.align set set, (found b p).asked⟩ :=
  ⟨_, _, settle_ok (IndexSet.commit_eq (found_learns h htidy hp).stillOpen.phase)⟩

theorem isPublic_of_mem_ending (h : Syncs size b) (htidy : ∀ rank < size, (b rank).Tidy)
    (hp : p < size) {x : Holding G A} (hx : x ∈ (ending b p).set.holdings) :
    x ∈ (b p).set.holdings ∨ x.isPublic = true := by
  have hlearns := found_learns h htidy hp
  have hphase := (LinkTable.checkSyncable_eq_ok_iff.mp (h.checked p hp)).1
  have hnone := ((htidy p hp).wellFormed.settled hphase).1
  rw [ending, settle_ok (IndexSet.commit_eq hlearns.stillOpen.phase)] at hx
  rcases IndexSet.mem_merged.mp hx with hx | hx
  · have hkept := (List.mem_filter.mp hx).1
    rw [hlearns.holdings] at hkept
    exact .inl hkept
  · obtain ⟨a, ha, slot, rfl⟩ := IndexSet.eq_of_mem_place hx
    have hpublic : (b p).set.AddsPublic := by
      intro a ha
      rw [hnone] at ha
      cases ha
    exact .inr (addsPublic_found hpublic a (List.mem_mergeSort.mp ha))

end Sync

namespace Rebuild

/-- After the rebuild one rank deletes some of its holdings and prunes its table. -/
def thinned (p : Nat) (deletions : List (Deletion G)) (b : Nat → Rebuild G A)
    (numbering : Nat → Numbering G) (rank : Nat) : Refresh G A where
  rebuild := b rank
  change table :=
    if rank = p then do
      let (outcome, set) := (b rank).ends.source.without deletions
      outcome
      let (_, table) ← table.prune set set
      return (set, table)
    else .ok ((b rank).ends.source, table)
  numbering := numbering rank

variable [IsStrictTotalOrder G (· < ·)] [IsStrictTotalOrder A (· < ·)] {size p rank : Nat}
  {registry : Nat → Registry} {tag : Tag} {route : Route} {b : Nat → Rebuild G A}
  {deletions : List (Deletion G)} {numbering : Nat → Numbering G}

theorem tidy_cutBack (h : Prepared size registry tag route b) (hsingle : Single size route b)
    (hrank : rank < size) : (cutBack route size p deletions b numbering rank).Tidy := by
  rw [cutBack]
  split
  · refine ⟨(hsingle.wellFormed rank hrank).remainder (h.source rank hrank).phase _, fun k => ?_⟩
    rw [LinkTable.sendTo_pruned]
    exact (ascending_result h hrank k).filter _
  · exact tidy_rebuilt h hsingle hrank numbering

theorem grounded_cutBack (h : Prepared size registry tag route b) (hsingle : Single size route b)
    (hrank : rank < size) : Sync.Grounded size (fun rank => (b rank).Shows)
      (cutBack route size p deletions b numbering) rank := by
  intro k l hl
  apply published_of_mem_result h hsingle hrank
  rw [cutBack] at hl
  split at hl
  · rw [LinkTable.sendTo_pruned] at hl
    exact (List.mem_filter.mp hl).1
  · exact hl

theorem thorough_cutBack (h : Prepared size registry tag route b) (hsingle : Single size route b)
    (hrank : rank < size) (hne : rank ≠ p) : Sync.Thorough size (fun rank => (b rank).Shows)
      (cutBack route size p deletions b numbering) rank := by
  have hthorough := thorough_rebuilt h hsingle hrank numbering
  constructor
  case keys =>
    intro k hk
    rw [cutBack_of_ne hne]
    exact hthorough.keys k hk
  case links =>
    intro other hlt hother l hlocal hremote
    rw [cutBack_of_ne hne]
    exact hthorough.links other hlt hother l hlocal hremote

theorem syncs_cutBack (h : Prepared size registry tag route b) (hsingle : Single size route b) :
    Syncs size (cutBack route size p deletions b numbering) := by
  have hrebuilt := syncs_rebuilt h hsingle numbering
  constructor
  case checked =>
    intro rank hrank
    rw [cutBack]
    split
    · have hset :=
        (hsingle.wellFormed rank hrank).remainder (h.source rank hrank).phase deletions
      rw [LinkTable.checkSyncable_eq_ok_iff]
      refine ⟨(h.source rank hrank).phase, hsingle.one rank hrank,
        LinkTable.isSynced_align .., ?_⟩
      intro k l hl
      rw [LinkTable.sendTo_pruned] at hl
      exact (List.mem_filter.mp hl).2
    · exact hrebuilt.checked rank hrank
  case inRange =>
    intro rank hrank k hlisted
    rw [isSome_linksTo_cutBack] at hlisted
    exact hrebuilt.inRange rank hrank k hlisted
  case symmetric =>
    intro rank hrank k hk hne hlisted
    rw [isSome_linksTo_cutBack] at hlisted ⊢
    exact hrebuilt.symmetric rank hrank k hk hne hlisted

theorem brings_thinned (h : Prepared size registry tag route b) (hsingle : Single size route b)
    (hin : ∀ i, .one i ∈ deletions → i < (b p).ends.source.size) :
    Refresh.Brings size (result route size b) (thinned p deletions b numbering)
      (cutBack route size p deletions b numbering) := by
  constructor
  case changed =>
    intro rank hrank
    rw [thinned, cutBack]
    split
    next he =>
      subst he
      have hphase := (h.source rank hrank).phase
      have hwithout := IndexSet.without_eq (hsingle.wellFormed rank hrank) hphase hin
      obtain ⟨count, hprune⟩ : ∃ count,
          LinkTable.prune _ ((b rank).ends.source.remainder deletions) _ =
          .ok (count, _) := LinkTable.exists_prune (result route size b rank) hphase
      rw [hwithout]
      change (LinkTable.prune _ _ _ >>= fun r => pure (_, r.2)) = _
      rw [hprune]
      rfl
    next => rfl
  case numbering =>
    intro rank _
    rw [cutBack]
    split <;> rfl
  case syncs => exact syncs_cutBack h hsingle

theorem ending_cutBack_of_ne (h : Prepared size registry tag route b)
    (hsingle : Single size route b) (hrank : rank < size) (hne : rank ≠ p) :
    Sync.ending (cutBack route size p deletions b numbering) rank =
      let set := { (b rank).ends.source with revision := (b rank).ends.source.revision + 1 }
      ⟨.ok (), set, (result route size b rank).align set set, []⟩ := by
  have hsyncs : Syncs size (cutBack route size p deletions b numbering) :=
    syncs_cutBack h hsingle
  have hknown : Sync.ToldKnown (cutBack route size p deletions b numbering) rank := by
    apply (thorough_cutBack h hsingle hrank hne).toldKnown
    intro peer hpeer
    have hlt := hsyncs.neighbourly.lt rank hrank peer hpeer
    exact ⟨hlt, grounded_cutBack h hsingle hlt⟩
  have hshared : (cutBack route size p deletions b numbering rank).table.links =
      (cutBack route size p deletions b numbering rank).known.map .shared := by
    rw [Sync.known, cutBack_of_ne hne]
    exact links_result_shared h hsingle hrank
  rw [Sync.ending_of_known hsyncs
    (fun rank hrank => tidy_cutBack h hsingle hrank) hrank hshared hknown,
    cutBack_of_ne hne]
  rfl

/-- A rank has again what it deleted, but for the keys that it did not make known or that nobody
else shares an identifier with. -/
structure Healed (size : Nat) (b : Nat → Rebuild G A) (p : Nat) (deletions : List (Deletion G))
    (set : IndexSet G A) : Prop where
  wellFormed : set.WellFormed
  phase : set.phase = .ground
  keys : ∀ k, k ∈ set.keys ↔ k ∈ (b p).ends.source.keys ∧
    (deletions.any ((b p).ends.source.names k) = true →
      (b p).Shows k ∧ ∃ q < size, q ≠ p ∧ ∃ role, (b q).Shows ⟨k.globalId, role⟩)
  kept : ∀ x ∈ (b p).ends.source.holdings,
    deletions.any ((b p).ends.source.names x.key) = false →
    x ∈ set.holdings
  restored : ∀ x ∈ set.holdings, deletions.any ((b p).ends.source.names x.key) = true →
    x.isPublic = true

section Deleted

variable (deletions numbering) (h : Prepared size registry tag route b)
  (hsingle : Single size route b) (hp : p < size)

include h hsingle hp

theorem exact_ending_cutBack : Sync.Exact (cutBack route size p deletions b numbering) p
    (Sync.ending (cutBack route size p deletions b numbering) p) := by
  have hsyncs : Syncs size (cutBack route size p deletions b numbering) :=
    syncs_cutBack h hsingle
  exact Sync.exact_settle hsyncs (fun rank hrank => tidy_cutBack h hsingle hrank) hp

theorem mem_keys_ending_cutBack {k : Key G A} :
    k ∈ (Sync.ending (cutBack route size p deletions b numbering) p).set.keys ↔
      k ∈ ((b p).ends.source.remainder deletions).keys ∨
        (b p).Shows k ∧ ∃ q < size, q ≠ p ∧ ∃ role, (b q).Shows ⟨k.globalId, role⟩ := by
  have hexact := exact_ending_cutBack deletions numbering h hsingle hp
  rw [Sync.mem_keys_settled_iff (syncs_cutBack h hsingle) hp
    (fun _ hrank => grounded_cutBack h hsingle hrank)
    (fun _ hrank hne => thorough_cutBack h hsingle hrank hne) hexact, cutBack_self]

theorem healed_ending_cutBack :
    Healed size b p deletions
      (Sync.ending (cutBack route size p deletions b numbering) p).set := by
  have hexact := exact_ending_cutBack deletions numbering h hsingle hp
  constructor
  case wellFormed => exact hexact.wellFormed
  case phase => exact hexact.phase
  case keys =>
    intro k
    rw [mem_keys_ending_cutBack deletions numbering h hsingle hp, IndexSet.mem_keys_remainder]
    constructor
    · rintro (⟨hk, hkept⟩ | ⟨hshows, hshared⟩)
      · exact ⟨hk, fun hdeleted => absurd (hkept.symm.trans hdeleted) Bool.false_ne_true⟩
      · exact ⟨mem_keys_of_shows hshows, fun _ => ⟨hshows, hshared⟩⟩
    · rintro ⟨hk, hback⟩
      cases hnamed : deletions.any ((b p).ends.source.names k) with
      | false => exact .inl ⟨hk, rfl⟩
      | true => exact .inr (hback hnamed)
  case kept =>
    intro x hx hkept
    apply hexact.kept
    rw [cutBack_self]
    exact List.mem_filter.mpr ⟨hx, by rw [hkept]; rfl⟩
  case restored =>
    intro x hx hdeleted
    have hnew := Sync.isPublic_of_mem_ending (syncs_cutBack h hsingle)
      (fun rank hrank => tidy_cutBack h hsingle hrank) hp hx
    apply hnew.resolve_left
    intro hold
    rw [cutBack_self] at hold
    have hkept := (List.mem_filter.mp hold).2
    rw [hdeleted] at hkept
    cases hkept

variable (hself : ∀ rank < size, (b rank).table.settings.includeSelf = false)

include hself

theorem sendTo_ending_cutBack (q : Nat) :
    (Sync.ending (cutBack route size p deletions b numbering) p).table.sendTo q =
      (result route size b p).sendTo q := by
  have hexact := exact_ending_cutBack deletions numbering h hsingle hp
  apply (hexact.ascending q).ext (ascending_result h hp q)
  intro l
  rw [Sync.mem_sendTo_settled_iff (syncs_cutBack h hsingle) (outward_cutBack hsingle hself) hp
    (fun _ hrank => grounded_cutBack h hsingle hrank)
    (fun _ hrank hne => thorough_cutBack h hsingle hrank hne) hexact]
  constructor
  · rintro ⟨hq, hne, hknown⟩
    exact (mem_sendTo_result_iff h hsingle hp hq hne).mpr hknown
  · intro hl
    obtain ⟨hq, hknown⟩ := published_of_mem_result h hsingle hp hl
    refine ⟨hq, ?_, hknown⟩
    rintro rfl
    have hlisted := LinkTable.isSome_of_mem_sendTo hl
    rw [linksTo_result_own hsingle hself hq] at hlisted
    cases hlisted

theorem table_ending_cutBack :
    (Sync.ending (cutBack route size p deletions b numbering) p).table =
      let set := (Sync.ending (cutBack route size p deletions b numbering) p).set
      (result route size b p).align set set := by
  have hexact := exact_ending_cutBack deletions numbering h hsingle hp
  have hlists := sendTo_ending_cutBack deletions numbering h hsingle hp hself
  have hlisted : ∀ q,
      ((Sync.ending (cutBack route size p deletions b numbering) p).table.linksTo q).isSome =
      ((result route size b p).linksTo q).isSome := by
    intro q
    rw [Bool.eq_iff_iff, hexact.listed, isSome_linksTo_cutBack]
    apply or_iff_left_of_imp
    rintro ⟨l, htold⟩
    have hl := (hexact.links q l).mpr (.inr htold)
    rw [hlists] at hl
    exact LinkTable.isSome_of_mem_sendTo hl
  obtain ⟨set, links, hending⟩ := Sync.exists_ending
    (b := cutBack route size p deletions b numbering) (syncs_cutBack h hsingle)
    (fun rank hrank => tidy_cutBack h hsingle hrank) hp
  rw [hending] at hlists hlisted ⊢
  have hlinks : links.map Links.shared = (result route size b p).links := by
    apply LinkTable.links_eq_of_shared _ (links_result_shared h hsingle hp) hlists hlisted
    rw [LinkTable.align, LinkTable.map_send_shared]
  have hone : true = (result route size b p).isShared := (hsingle.one p hp).symm
  rw [hlinks, hone, cutBack_self]
  rfl

end Deleted

variable [LawfulScalar G] [LawfulRole A]

/-- However the ranks are interleaved, a sync undoes a deletion: every table is again what the
rebuild made it, the sets of the others never change, and the rank that deleted gets back all
that it shared. -/
theorem sync_after_deletion {n : Network} (settings : SyncSettings)
    (h : Prepared n.size registry tag route b) (hsingle : Single n.size route b)
    (hself : ∀ rank < n.size, (b rank).table.settings.includeSelf = false)
    (hclear : ∀ source < n.size, ∀ dest < n.size, n.channel source dest tag = [])
    (hclear' : ∀ source < n.size, ∀ dest < n.size, n.channel source dest settings.tag = [])
    (hp : p < n.size) (hin : ∀ i, .one i ∈ deletions → i < (b p).ends.source.size)
    (numbering : Nat → Numbering G) :
    Yields n registry b (result route n.size b) ∧ ∃ results : Nat → SyncResult G A,
      Refresh.Yields n registry settings (thinned p deletions b numbering)
        (cutBack route n.size p deletions b numbering) results ∧
      (∀ rank < n.size, (results rank).outcome = .ok () ∧ (results rank).table =
        (result route n.size b rank).align (results rank).set (results rank).set) ∧
      (∀ rank < n.size, rank ≠ p → (results rank).set.holdings = (b rank).ends.source.holdings) ∧
      Healed n.size b p deletions (results p).set := by
  have hbrings : Refresh.Brings n.size (result route n.size b) (thinned p deletions b numbering)
      (cutBack route n.size p deletions b numbering) := brings_thinned h hsingle hin
  have hyields :=
    Refresh.yields_ending (f := thinned p deletions b numbering) h hbrings hclear hclear'
  refine ⟨yields_result h hclear, _, hyields, ?_, ?_, ?_⟩
  · intro rank hrank
    by_cases he : rank = p
    · subst he
      exact ⟨(exact_ending_cutBack deletions numbering h hsingle hp).ok,
        table_ending_cutBack deletions numbering h hsingle hp hself⟩
    · rw [ending_cutBack_of_ne h hsingle hrank he]
      exact ⟨rfl, rfl⟩
  · intro rank hrank he
    rw [ending_cutBack_of_ne h hsingle hrank he]
  · exact healed_ending_cutBack deletions numbering h hsingle hp

def twoShared (rank : Nat) : Rebuild UInt64 MeshRole where
  table := { settings := { strategy := .ring } }
  ends := .one { holdings := match rank with
    | 0 => [⟨7, .valid 0 .owner true⟩, ⟨7, .valid 1 .ghost false⟩, ⟨9, .valid 2 .owner true⟩]
    | 1 => [⟨7, .valid 0 .overlap true⟩]
    | _ => [⟨7, .valid 3 .ghost true⟩] }
  ignorePublic := rank == 0

theorem prepared_twoShared : Prepared 3 (fun _ => .basic) Tag.rebuild .ring twoShared := by
  have hrest : ∀ rank < 3, (twoShared rank).ends.source.AtRest := by
    intro rank hrank
    match rank with
    | 0 | 1 | 2 => exact ⟨rfl, by decide⟩
  exact ⟨fun _ _ => ⟨⟨rfl, rfl, rfl⟩, rfl⟩, hrest, hrest, fun _ _ => rfl, fun _ _ => rfl, nofun⟩

theorem single_twoShared : Single 3 .ring twoShared := by
  refine ⟨fun _ _ => rfl, fun rank hrank => ?_, nofun⟩
  match rank with
  | 0 | 1 | 2 => exact .of_settled (by decide) rfl rfl (by decide)

def allOfFirst : List (Deletion UInt64) := [.one 2, .all 7]

def cutTwoShared : Nat → Sync UInt64 MeshRole :=
  cutBack .ring 3 0 allOfFirst twoShared fun _ => freshSlots

theorem packs_cutTwoShared : Sync.Packs 3 (fun _ => .basic) cutTwoShared := by
  have hready : Syncs 3 cutTwoShared := syncs_cutBack prepared_twoShared single_twoShared
  apply Sync.Packs.of_isOk
  intro rank hrank other hother _
  have hlt := hready.inRange rank hrank other (NatMap.mem_keys.mp hother)
  match rank, other with
  | 0, 0 | 0, 1 | 0, 2 | 1, 0 | 1, 1 | 1, 2 | 2, 0 | 2, 1 | 2, 2 => decide_cbv

theorem sync_after_deletion_twoShared : ∃ results : Nat → SyncResult UInt64 MeshRole,
    (Refresh.beginning (.quiet 3) (fun _ => .basic) {}
      (thinned 0 allOfFirst twoShared fun _ => freshSlots)).Inevitable (fun q =>
        q.results = (List.range 3).map fun rank => (.ok (), results rank)) ∧
    (results 0).table.links = (result .ring 3 twoShared 0).links ∧
    ⟨7, .owner⟩ ∈ (results 0).set.keys ∧ ⟨7, .ghost⟩ ∈ (results 0).set.keys ∧
    ⟨9, .owner⟩ ∉ (results 0).set.keys := by
  have hin : ∀ i, .one i ∈ allOfFirst → i < (twoShared 0).ends.source.size := by
    intro i hi
    obtain rfl : i = 2 := by simpa [allOfFirst] using hi
    decide
  obtain ⟨-, results, hyields, htables, -, hhealed⟩ :=
    sync_after_deletion (n := .quiet 3) (p := 0) {}
    prepared_twoShared single_twoShared (fun _ _ => rfl) (by decide) (by decide) (by decide) hin
    fun _ => freshSlots
  have hshown : (twoShared 1).Shows ⟨7, .overlap⟩ := ⟨_, List.mem_cons_self .., rfl, by decide⟩
  have hback : ∀ k ∈ (twoShared 0).ends.source.keys, k.globalId = 7 →
      k ∈ (results 0).set.keys := by
    intro k hk hglobal
    refine (hhealed.keys k).mpr
      ⟨hk, fun _ => ⟨?_, 1, by decide, by decide, .overlap, hglobal ▸ hshown⟩⟩
    obtain ⟨h, hh, hkey⟩ := IndexSet.mem_keys.mp hk
    exact ⟨h, hh, hkey, .inl rfl⟩
  refine ⟨results, (hyields.inevitable (by decide) packs_cutTwoShared).mono fun q hq => hq.1, ?_,
    hback _ (by decide) rfl, hback _ (by decide) rfl, fun hnine => ?_⟩
  · rw [(htables 0 (by decide)).2]
    rfl
  · obtain ⟨-, q, hq, hne, role, h, hh, hkey, -⟩ := ((hhealed.keys _).mp hnine).2 (by decide)
    have hglobal : ∀ q < 3, q ≠ 0 → ∀ h ∈ (twoShared q).ends.source.holdings,
        h.globalId = 7 := by
      intro q hq hne
      match q with
      | 1 | 2 => decide
    have hseven := hglobal q hq hne h hh
    rw [show h.globalId = 9 from congrArg Key.globalId hkey] at hseven
    cases hseven

end Rebuild

end HaloIndex
