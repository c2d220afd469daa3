import HaloIndex.Proofs.Sync.Table

namespace HaloIndex

variable {G A : Type}

namespace Sync

def Knows (b : Sync G A) (rank : Nat) (k : Key G A) (role : A) : Prop :=
  ⟨k.globalId, k.role, role⟩ ∈ b.table.sendTo rank

/-- We know that a rank is to hold this key. -/
def TellsKey (b : Sync G A) (rank : Nat) (k : Key G A) : Prop :=
  ∃ role, ⟨k.globalId, role⟩ ∈ b.set.keys ∧ b.Knows rank ⟨k.globalId, role⟩ k.role

/-- We know that a rank is to have this link to us, who are `own`, or to a third rank. -/
def TellsLink (b : Sync G A) (own rank other : Nat) (l : Link G A) : Prop :=
  ∃ role, ⟨l.globalId, role⟩ ∈ b.set.keys ∧ b.Knows rank ⟨l.globalId, role⟩ l.localRole ∧
    (other = own ∧ l.remoteRole = role ∨
      other ≠ rank ∧ b.Knows other ⟨l.globalId, role⟩ l.remoteRole)

theorem mem_rolesOf {a : Announcement G A} {rank : Nat} {role : A} :
    role ∈ a.rolesOf rank ↔ (rank, role) ∈ a.knowers := by
  simp [Announcement.rolesOf]

section Told

variable [DecidableEq G] [DecidableEq A]

theorem mem_knowersOf_known {b : Sync G A} {rank : Nat} {k : Key G A} {role : A} :
    (rank, role) ∈ knowersOf b.known k ↔ b.Knows rank k role := by
  rw [mem_knowersOf, Knows, ← linksTo_start, Discovery.linksTo, start]

theorem exists_told (b : Sync G A) (rank : Nat) (claim : Key G A → List (Nat × A) → A → Prop) :
    (∃ a ∈ Announcement.toRank rank b.set b.known, ∃ role ∈ a.rolesOf rank,
        claim a.key a.knowers role) ↔
      ∃ k ∈ b.set.keys, ∃ role, b.Knows rank k role ∧ claim k (knowersOf b.known k) role := by
  constructor
  · rintro ⟨a, ha, role, hrole, hclaim⟩
    obtain ⟨hkey, hknowers, -⟩ := Announcement.mem_toRank.mp ha
    rw [mem_rolesOf, hknowers, mem_knowersOf_known] at hrole
    rw [hknowers] at hclaim
    exact ⟨a.key, hkey, role, hrole, hclaim⟩
  · rintro ⟨k, hk, role, hrole, hclaim⟩
    have hknower := mem_knowersOf_known.mpr hrole
    exact ⟨⟨k, knowersOf b.known k⟩, Announcement.mem_toRank.mpr ⟨hk, rfl, role, hknower⟩, role,
      mem_rolesOf.mpr hknower, hclaim⟩

theorem tellsKey_iff {b : Sync G A} {rank : Nat} {k : Key G A} : b.TellsKey rank k ↔
    ∃ a ∈ Announcement.toRank rank b.set b.known, ∃ role ∈ a.rolesOf rank,
      k = ⟨a.key.globalId, role⟩ := by
  rw [exists_told b rank fun k' _ role => k = ⟨k'.globalId, role⟩]
  constructor
  · rintro ⟨role, hk, hknows⟩
    exact ⟨_, hk, _, hknows, rfl⟩
  · rintro ⟨k', hk, role, hknows, rfl⟩
    exact ⟨k'.role, hk, hknows⟩

theorem tellsLink_iff {b : Sync G A} {own rank other : Nat} {l : Link G A} :
    b.TellsLink own rank other l ↔
      ∃ a ∈ Announcement.toRank rank b.set b.known, ∃ role ∈ a.rolesOf rank,
        Discovery.Tells rank own a role other l := by
  have htold := exists_told b rank (fun k knowers role =>
    other = own ∧ l = ⟨k.globalId, role, k.role⟩ ∨
      other ≠ rank ∧ ∃ far, (other, far) ∈ knowers ∧ l = ⟨k.globalId, role, far⟩)
  refine Iff.trans ?_ htold.symm
  simp only [mem_knowersOf_known]
  constructor
  · obtain ⟨globalId, localRole, remoteRole⟩ := l
    rintro ⟨role, hk, hknows, ⟨hother, hrole⟩ | ⟨hother, hfar⟩⟩
    · exact ⟨_, hk, _, hknows, .inl ⟨hother, by rw [← hrole]⟩⟩
    · exact ⟨_, hk, _, hknows, .inr ⟨hother, _, hfar, rfl⟩⟩
  · rintro ⟨k, hk, role, hknows, ⟨hother, rfl⟩ | ⟨hother, far, hfar, rfl⟩⟩
    · exact ⟨k.role, hk, hknows, .inl ⟨hother, rfl⟩⟩
    · exact ⟨k.role, hk, hknows, .inr ⟨hother, hfar⟩⟩

end Told

theorem sendTo_of_links {t : LinkTable G A} {d : Discovery G A}
    (h : t.links = d.links.map .shared) (rank : Nat) : t.sendTo rank = d.linksTo rank := by
  rw [LinkTable.sendTo, LinkTable.linksTo, h, NatMap.get?_map, Option.map_map, Discovery.linksTo]
  exact congrArg (Option.getD · []) Option.map_id'

variable [LT G] [LT A]

theorem settle_ok [DecidableEq G] [DecidableLT G] [DecidableLT A] {b : Sync G A}
    {d : Discovery G A} {set : IndexSet G A} (h : d.set.commit = (.ok (), set)) :
    b.settle (.ok ()) d = ⟨.ok (), set,
      { b.table with
        links := d.links.map .shared, isShared := true }.align set set, d.asked⟩ := by
  simp only [settle, h]

/-- A sync that ends well does the same in every build. -/
theorem cases_settleBy [Scalar G] [Role A] [DecidableEq G] [DecidableEq A] [DecidableLT G]
    [DecidableLT A] {b : Sync G A} {build : Build} {outcome : Except Fault Unit}
    {d : Discovery G A}
    (hok : (b.settleBy build outcome d).outcome = .ok ()) :
    outcome = .ok () ∧ b.settleBy build outcome d = b.settle outcome d ∧
      (build = .checked → d.set.countsOn = true) := by
  cases outcome with
  | error f => cases hok
  | ok =>
    rw [settleBy] at hok ⊢
    rcases hby : d.set.commitBy build with ⟨committed, set⟩
    rw [hby] at hok
    cases committed with
    | error f => cases hok
    | ok =>
      obtain ⟨hcommit, hcounts⟩ := IndexSet.commit_of_commitBy hby
      dsimp only at hok ⊢
      rw [hok, settle_ok hcommit]
      exact ⟨rfl, rfl, hcounts⟩

structure Tidy (b : Sync G A) : Prop where
  wellFormed : b.set.WellFormed
  ascending : ∀ other, Ascending (b.table.sendTo other)

theorem Tidy.of_entries {b : Sync G A} (hset : b.set.WellFormed)
    (hlists : ∀ e ∈ b.table.links.entries, Ascending e.2.send) : b.Tidy := by
  refine ⟨hset, fun other => ?_⟩
  cases hget : b.table.linksTo other with
  | none =>
    rw [LinkTable.sendTo, hget]
    exact .nil
  | some links =>
    have hlinks := NatMap.get?_eq_some_iff.mp hget
    rw [LinkTable.sendTo_of_mem hlinks]
    exact hlists _ hlinks

theorem Tidy.open_start {b : Sync G A} (h : b.Tidy) : b.start.Open := by
  obtain ⟨hwell, hascending⟩ := h
  refine ⟨hwell.opened, rfl, fun other => ?_⟩
  rw [linksTo_start]
  exact hascending other

/-- A rank has all that it had and all that its neighbours told it, and nothing else. -/
structure Exact (b : Nat → Sync G A) (rank : Nat) (r : SyncResult G A) : Prop where
  ok : r.outcome = .ok ()
  wellFormed : r.set.WellFormed
  phase : r.set.phase = .ground
  shared : r.table.isShared = true
  synced : r.table.isSynced r.set r.set = true
  keys : ∀ k, k ∈ r.set.keys ↔ k ∈ (b rank).set.keys ∨
    ∃ peer ∈ (b rank).peers rank, (b peer).TellsKey rank k
  kept : ∀ h ∈ (b rank).set.holdings, h ∈ r.set.holdings
  links : ∀ other l, l ∈ r.table.sendTo other ↔ l ∈ (b rank).table.sendTo other ∨
    ∃ peer ∈ (b rank).peers rank, (b peer).TellsLink peer rank other l
  ascending : ∀ other, Ascending (r.table.sendTo other)
  listed : ∀ other, (r.table.linksTo other).isSome ↔ ((b rank).table.linksTo other).isSome ∨
    ∃ l, ∃ peer ∈ (b rank).peers rank, (b peer).TellsLink peer rank other l
  neighbours : r.table.neighbours = (b rank).table.neighbours
  publicIgnored : r.table.publicIgnored = (b rank).table.publicIgnored

variable [DecidableEq G] [DecidableEq A] [DecidableLT G] [DecidableLT A]
  [IsStrictTotalOrder G (· < ·)] [IsStrictTotalOrder A (· < ·)]

theorem holds_start {b : Sync G A} (hset : b.set.WellFormed) (hphase : b.set.phase = .ground)
    (k : Key G A) : b.start.set.holds k = true ↔ k ∈ b.set.keys := by
  have hvalid := (hset.settled hphase).2
  rw [IndexSet.holds_iff (s := b.start.set) hset.ascending, IndexSet.mem_keys]
  simp only [start, hset.pendingKeys_eq_nil hphase, List.not_mem_nil, or_false]
  constructor
  · rintro ⟨h, hh, hk, -⟩
    exact ⟨h, hh, hk⟩
  · rintro ⟨h, hh, hk⟩
    exact ⟨h, hh, hk, hvalid h hh⟩

theorem told_eq {b : Sync G A} (h : b.Tidy) (rank : Nat) :
    b.told rank = Announcement.toRank rank b.set b.known := by
  apply Announcement.filter_scan h.wellFormed.ascending
  intro e he
  obtain ⟨⟨other, links⟩, hlinks, rfl⟩ := List.mem_map.mp he
  have hother := h.ascending other
  rwa [LinkTable.sendTo_of_mem hlinks] at hother

variable [Scalar G] [Role A] {size : Nat} {b : Nat → Sync G A} {rank : Nat}

theorem found_learns (h : Syncs size b) (htidy : ∀ rank < size, (b rank).Tidy)
    (hrank : rank < size) :
    Discovery.Learns (b rank).start
      (fun k => ∃ peer ∈ (b rank).peers rank, (b peer).TellsKey rank k)
      (fun other l => ∃ peer ∈ (b rank).peers rank, (b peer).TellsLink peer rank other l)
      (found b rank) := by
  apply Discovery.Learns.foldl (fun peer hpeer d hd => ?_) (htidy rank hrank).open_start
  have hadopts := Discovery.adoptAll_adopts rank peer (b rank).numbering ((b peer).told rank)
  rw [told_eq (htidy peer (h.neighbourly.lt rank hrank peer hpeer))] at hadopts
  rw [hear, told_eq (htidy peer (h.neighbourly.lt rank hrank peer hpeer))]
  exact (hadopts.learns d hd).congr (fun k => tellsKey_iff.symm) fun other l =>
    tellsLink_iff.symm

theorem exact_settle (h : Syncs size b) (htidy : ∀ rank < size, (b rank).Tidy)
    (hrank : rank < size) :
    Exact b rank ((b rank).settle (.ok ()) (found b rank)) := by
  have hlearns := found_learns h htidy hrank
  have hphase := (LinkTable.checkSyncable_eq_ok_iff.mp (h.checked rank hrank)).1
  have hwell := (htidy rank hrank).wellFormed
  obtain ⟨set, hcommit⟩ : ∃ set, (found b rank).set.commit = (.ok (), set) :=
    ⟨_, IndexSet.commit_eq hlearns.stillOpen.phase⟩
  have hfound := hlearns.stillOpen.wellFormed
  rw [settle_ok hcommit]
  constructor
  case ok => rfl
  case wellFormed => exact hfound.commit hcommit
  case phase =>
    rw [(IndexSet.eq_of_commit hcommit).2]
    rfl
  case shared => rfl
  case synced => simp [LinkTable.isSynced, LinkTable.align]
  case keys =>
    intro k
    rw [IndexSet.mem_keys_commit hfound hcommit, ← IndexSet.holds_iff hfound.ascending,
      hlearns.holds, holds_start hwell hphase]
  case kept =>
    intro h hh
    rw [(IndexSet.eq_of_commit hcommit).2]
    refine IndexSet.mem_merged.mpr (.inl (List.mem_filter.mpr ⟨hlearns.holdings ▸ hh, ?_⟩))
    rw [(hwell.settled hphase).2 h hh]
    rfl
  case links =>
    intro other l
    rw [sendTo_of_links rfl, hlearns.linked, linksTo_start]
  case ascending =>
    intro other
    rw [sendTo_of_links rfl]
    exact hlearns.stillOpen.ascending other
  case listed =>
    intro other
    have hlisted := hlearns.listed other
    rw [start, known, NatMap.get?_map, Option.isSome_map] at hlisted
    rw [LinkTable.linksTo, LinkTable.align, NatMap.get?_map, Option.isSome_map, hlisted]
    rfl
  case neighbours => rfl
  case publicIgnored => rfl

section Ends

variable [LawfulScalar G] [LawfulRole A] {n : Network} {registry : Nat → Registry}
  {settings : SyncSettings}

theorem inevitable_ending (hready : Syncs n.size b)
    (hclear : ∀ source < n.size, ∀ dest < n.size, n.channel source dest settings.tag = [])
    (hspeaks : ∀ rank < n.size, (registry rank).Speaks G) (hpack : Packs n.size registry b) :
    (beginning n registry settings b).Inevitable fun q =>
      q.results = (List.range n.size).map (ending b) ∧ q.network.traffic = n.traffic := by
  obtain ⟨es, hconcludes⟩ :=
    sync_concludes (t := n.traffic) settings hready hclear hspeaks hpack
  exact hconcludes.inevitable.mono fun q hq => ⟨hq.1, hq.2.2⟩

theorem eq_ending_of_done (hready : Syncs n.size b)
    (hclear : ∀ source < n.size, ∀ dest < n.size, n.channel source dest settings.tag = [])
    (hspeaks : ∀ rank < n.size, (registry rank).Speaks G) {q : Pool (SyncResult G A)}
    (hq : Relation.ReflTransGen Pool.Step (beginning n registry settings b) q)
    (hdone : ∀ task ∈ q.tasks, ∃ r, task.program = .done r ∧ r.outcome = .ok ()) :
    q.results = (List.range n.size).map (ending b) ∧ q.network.traffic = n.traffic := by
  have hpack := packs_of_done hready hq hdone
  refine ((inevitable_ending hready hclear hspeaks hpack).stops q hq).resolve_left ?_
  exact Pool.not_step_of_done fun task htask => (hdone task htask).imp fun _ h => h.1

variable (registry settings)

/-- However the ranks are interleaved while they sync, if all end well they end with exactly what
they had and were told; and all do end well unless a message is too large to be packed. -/
theorem sync_exact (hready : Syncs n.size b) (htidy : ∀ rank < n.size, (b rank).Tidy)
    (hclear : ∀ source < n.size, ∀ dest < n.size, n.channel source dest settings.tag = [])
    (hspeaks : ∀ rank < n.size, (registry rank).Speaks G) :
    ∃ results : Nat → SyncResult G A, (∀ rank < n.size, Exact b rank (results rank)) ∧
      (∀ q, Relation.ReflTransGen Pool.Step (beginning n registry settings b) q →
        (∀ task ∈ q.tasks, ∃ r, task.program = .done r ∧ r.outcome = .ok ()) →
        q.results = (List.range n.size).map results ∧ q.network.traffic = n.traffic) ∧
      (Packs n.size registry b → (beginning n registry settings b).Inevitable fun q =>
        q.results = (List.range n.size).map results ∧ q.network.traffic = n.traffic) :=
  ⟨ending b, fun _ hrank => exact_settle hready htidy hrank,
    fun _ hq hdone => eq_ending_of_done hready hclear hspeaks hq hdone,
    fun hpack => inevitable_ending hready hclear hspeaks hpack⟩

end Ends

def thirdHolder (rank : Nat) : Sync UInt64 MeshRole where
  table :=
    { isShared := true, sourceRevision := some 0, destRevision := some 0
      links := .ofList <| match rank with
        | 0 => [(1, .shared [⟨7, .owner, .ghost⟩]), (2, .shared [⟨7, .owner, .overlap⟩])]
        | 1 => [(0, .shared [⟨7, .ghost, .owner⟩])]
        | _ => [(0, .shared [])] }
  set := { holdings := match rank with
      | 0 => [⟨7, .valid 0 .owner true⟩]
      | 1 => [⟨7, .valid 0 .ghost true⟩]
      | _ => [] }
  numbering := freshSlots

theorem syncs_thirdHolder : Syncs 3 thirdHolder := by
  apply Syncs.of_keys
  · decide +kernel
  · decide +kernel

theorem tidy_thirdHolder : ∀ rank < 3, (thirdHolder rank).Tidy := by
  intro rank hrank
  match rank with
  | 0 => exact .of_entries (.of_settled (by decide) rfl rfl (by decide)) (by decide)
  | 1 => exact .of_entries (.of_settled (by decide) rfl rfl (by decide)) (by decide)
  | 2 => exact .of_entries (.of_settled (by decide) rfl rfl (by decide)) (by decide)

theorem packs_thirdHolder : Packs 3 (fun _ => .basic) thirdHolder := by
  apply Packs.of_isOk
  decide +kernel

theorem sync_exact_thirdHolder :
    ∃ results : Nat → SyncResult UInt64 MeshRole,
      (∀ rank < 3, Exact thirdHolder rank (results rank)) ∧
      (beginning (.quiet 3) (fun _ => .basic) {} thirdHolder).Inevitable fun q =>
        q.results = [results 0, results 1, results 2] ∧
          q.network.traffic = (Network.quiet 3).traffic := by
  obtain ⟨results, hexact, -, hend⟩ := sync_exact (n := .quiet 3) (fun _ => .basic) {}
    syncs_thirdHolder tidy_thirdHolder (by decide) fun _ _ => ⟨rfl, rfl, rfl⟩
  exact ⟨results, hexact, hend packs_thirdHolder⟩

end Sync

end HaloIndex
