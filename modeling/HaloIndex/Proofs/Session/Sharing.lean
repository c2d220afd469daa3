import HaloIndex.Link.Editor
import HaloIndex.Proofs.Rebuild.OneSet
import HaloIndex.Proofs.Rebuild.Provenance
import HaloIndex.Proofs.Sync.Atomic

namespace HaloIndex

theorem Unpack.ok_of_bind {α β : Type} {item : Unpack α} {f : α → Unpack β}
    {c d : Cursor} {b : β} (h : (item >>= f) c = (.ok b, d)) :
    ∃ a mid, item c = (.ok a, mid) ∧ f a mid = (.ok b, d) := by
  cases hitem : item c with
  | mk outcome mid =>
    cases outcome with
    | ok a => exact ⟨a, mid, rfl, (bind_of_ok hitem).symm.trans h⟩
    | error f =>
      rw [bind_of_error hitem] at h
      cases h

variable {G A : Type}

namespace Publication

variable [Scalar G] [Role A]

theorem flag_of_encode {r : Registry} {p : Publication G A} {bytes : List UInt8}
    (hpack : p.encode r = .ok bytes) : (∃ d, r.descriptor Bool = .ok d) ∧
      ∃ rest, bytes = Scalar.bytes p.dest.isSome ++ rest := by
  obtain ⟨_, -, hpack⟩ := HaloIndex.ok_of_bind hpack
  obtain ⟨_, -, hpack⟩ := HaloIndex.ok_of_bind hpack
  obtain ⟨flag, hflag, hpack⟩ := HaloIndex.ok_of_bind hpack
  obtain ⟨_, -, hpack⟩ := HaloIndex.ok_of_bind hpack
  obtain ⟨two, htwo, hpack⟩ := HaloIndex.ok_of_bind hpack
  obtain ⟨_, -, hpack⟩ := HaloIndex.ok_of_bind hpack
  obtain ⟨_, -, hpack⟩ := HaloIndex.ok_of_bind hpack
  obtain ⟨_, -, hpack⟩ := HaloIndex.ok_of_bind hpack
  cases hpack
  exact ⟨⟨flag, hflag⟩, _, by rw [r.eq_bytes_of_packed htwo]⟩

variable [LT G] [LT A] [DecidableEq G] [DecidableLT G] [DecidableLT A]

theorem dest_of_decode {registry : Registry} (hflag : registry.Knows Bool) {two : Bool}
    {rest : List UInt8} {p : Publication G A}
    (hread : decode registry (Scalar.bytes two ++ rest) = .ok p) :
    p.dest.isSome = two := by
  obtain ⟨q, mid, hunpack, hend⟩ := Unpack.ok_of_bind (d := _) (Prod.ext hread rfl)
  obtain ⟨_, _, -, hend⟩ := Unpack.ok_of_bind hend
  cases hend
  obtain ⟨flag, _, hflagged, hunpack⟩ := Unpack.ok_of_bind hunpack
  rw [Cursor.start, Unpack.reads_scalar hflag] at hflagged
  cases hflagged
  obtain ⟨_, _, -, hunpack⟩ := Unpack.ok_of_bind hunpack
  obtain ⟨_, _, -, hunpack⟩ := Unpack.ok_of_bind hunpack
  obtain ⟨_, _, -, hunpack⟩ := Unpack.ok_of_bind hunpack
  cases two with
  | false =>
    cases hunpack
    rfl
  | true =>
    obtain ⟨_, _, -, hunpack⟩ := Unpack.ok_of_bind hunpack
    cases hunpack
    rfl

end Publication

namespace LinkTable

/-- If the table says that its lists are shared, they are, but for those of these ranks. -/
def Truthful (two : Nat → Prop) (t : LinkTable G A) : Prop :=
  t.isShared = true → ∀ e ∈ t.links.entries, e.2.isShared = true ∨ two e.1

variable {two : Nat → Prop} {t t' : LinkTable G A}

theorem truthful_edit {rank : Nat} {set : IndexSet G A} {e : LinkEditor G A}
    (hedit : t.edit rank set = .ok (e, t')) (e' : LinkEditor G A) :
    (t'.adopt e').Truthful two := by
  obtain ⟨-, hedit⟩ := IndexSet.ok_of_require hedit
  split at hedit
  next => cases hedit
  next hsplit =>
    cases hedit
    intro _ e he
    rcases NatMap.mem_insertInto he with rfl | he
    · exact .inl rfl
    · rcases NatMap.mem_insertInto he with rfl | he
      · exact .inl rfl
      · left
        by_contra hlist
        exact hsplit (List.any_eq_true.mpr ⟨e, he, by simpa using hlist⟩)

variable [LT G] [LT A] [DecidableEq G] [DecidableLT G] [DecidableLT A]

theorem truthful_prune {source dest : IndexSet G A} {count : Nat} (h : t.Truthful two)
    (hprune : t.prune source dest = .ok (count, t')) : t'.Truthful two := by
  obtain ⟨-, hprune⟩ := IndexSet.ok_of_require hprune
  obtain ⟨-, hprune⟩ := IndexSet.ok_of_require hprune
  cases hprune
  intro hshared e he
  obtain ⟨⟨rank, links⟩, hlinks, rfl⟩ := List.mem_map.mp he
  have hlist := h hshared _ hlinks
  cases links <;> exact hlist

variable [DecidableEq A] [Scalar G] [Role A]

/-- Of all messages that this rebuild gets, only those for these ranks are about two sets. -/
def HeardTwo (two : Nat → Prop) (b : Rebuild G A) (s : Station) (es : List Event) : Prop :=
  ∀ route, { b.table with neighbours := b.neighbours s.rank }.route s.size = .ok route →
    ∀ e ∈ b.heard s route es, ∀ p : Publication G A,
      Publication.decode s.registry e.2 = .ok p → p.dest.isSome = true → two e.1

/-- A table after any calls. Only these ranks have two sets when the table is rebuilt with one,
and whoever can write a flag can read it. -/
inductive Used (two : Nat → Prop) : LinkTable G A → Prop where
  | fresh (settings : TableSettings) (neighbours : RankSet) :
    Used two (withSettings settings neighbours)
  | configured {t : LinkTable G A} (h : Used two t) (settings : TableSettings)
    (neighbours : RankSet) :
    Used two { t with settings, neighbours }
  | rebuilt {b : Rebuild G A} {s : Station} {es : List Event}
      {r : Except Fault Unit × LinkTable G A} (h : Used two b.table)
      (hflag : ∀ d, s.registry.descriptor Bool = .ok d → s.registry.Knows Bool)
      (hpath : (b.program s).Path es (.done r))
      (hheard : b.ends.isOne = true → HeardTwo two b s es) :
    Used two r.2
  | synced {b : Sync G A} {s : Station} {settings : SyncSettings} {es : List Event}
      {r : SyncResult G A}
      (h : Used two b.table) (hpath : (b.program s settings).Path es (.done r)) :
      Used two r.table
  | edited {t t' : LinkTable G A} {rank : Nat} {set : IndexSet G A} {e : LinkEditor G A}
      (h : Used two t)
      (hedit : t.edit rank set = .ok (e, t')) (e' : LinkEditor G A) : Used two (t'.adopt e')
  | pruned {t t' : LinkTable G A} {source dest : IndexSet G A} {count : Nat} (h : Used two t)
      (hprune : t.prune source dest = .ok (count, t')) : Used two t'
  | cleared {t : LinkTable G A} (h : Used two t) : Used two t.clear

theorem truthful_rebuild {b : Rebuild G A} {s : Station} {es : List Event}
    {r : Except Fault Unit × LinkTable G A} (h : b.table.Truthful two)
    (hflag : ∀ d, s.registry.descriptor Bool = .ok d → s.registry.Knows Bool)
    (hpath : (b.program s).Path es (.done r))
    (hheard : b.ends.isOne = true → HeardTwo two b s es) :
    r.2.Truthful two := by
  cases Rebuild.ends_of_path hpath with
  | refused f neighbours => exact h
  | failed f => exact fun _ => nofun
  | @rebuilt route links hsource hdest hroute horigin =>
    intro hone e he
    have hown : b.published.dest = none := Rebuild.dest_published_eq_none hone
    cases horigin e he with
    | @heard rank payload links hin hlinks =>
      obtain ⟨other, hother, rfl⟩ := Publication.exists_of_linksFrom hlinks
      cases hdest : other.dest with
      | none =>
        left
        rw [Publication.isShared_linksWith, hown, hdest]
        rfl
      | some keys => exact .inr (hheard hone route hroute _ hin other hother (hdest ▸ rfl))
    | @own message links hpack hlinks =>
      obtain ⟨other, hother, rfl⟩ := Publication.exists_of_linksFrom hlinks
      obtain ⟨⟨d, hd⟩, rest, rfl⟩ := Publication.flag_of_encode hpack
      have hdest := Publication.dest_of_decode (hflag d hd) hother
      rw [hown, Option.isSome_none] at hdest
      left
      rw [Publication.isShared_linksWith, hown, hdest]
      rfl

variable [IsStrictTotalOrder G (· < ·)] [IsStrictTotalOrder A (· < ·)]

theorem truthful_sync {b : Sync G A} {s : Station} {settings : SyncSettings} {es : List Event}
    {r : SyncResult G A} (h : b.table.Truthful two)
    (hpath : (b.program s settings).Path es (.done r)) :
    r.table.Truthful two := by
  cases hcheck : b.table.checkSyncable b.set with
  | error f =>
    obtain ⟨-, -, -, -, htable⟩ := (Sync.atomic_of_refused hcheck hpath).refused f hcheck
    rwa [htable]
  | ok =>
    obtain ⟨outcome, d, rfl, -⟩ := Sync.program_keeps hcheck
      (fun d => d.Extends { b.set with phase := .resize }) (fun d hd => hd.phase)
      (fun peer as d hd => hd.adoptAll _ peer _ as) ⟨_, _, rfl⟩ hpath
    cases outcome with
    | error f =>
      intro _ e he
      cases he
    | ok =>
      rw [Sync.settle]
      split
      next => exact h
      next =>
        intro _ e he
        obtain ⟨⟨rank, links⟩, -, rfl⟩ := List.mem_map.mp he
        exact .inl rfl

theorem Used.truthful (h : Used two t) : t.Truthful two := by
  induction h with
  | fresh => exact nofun
  | configured _ _ _ ih => exact ih
  | rebuilt _ hflag hpath hheard ih => exact truthful_rebuild ih hflag hpath hheard
  | synced _ hpath ih => exact truthful_sync ih hpath
  | edited _ hedit e' => exact truthful_edit hedit e'
  | pruned _ hprune ih => exact truthful_prune ih hprune
  | cleared => exact fun _ => nofun

/-- However a table came about, if it says that its lists are shared then only lists for ranks
that were heard to have two sets are split. Without such ranks a sync, which goes by the list for
sending, loses nothing. -/
theorem shared_of_used (h : Used two t) (hshared : t.isShared = true) :
    (∀ e ∈ t.links.entries, e.2.isShared = true ∨ two e.1) ∧
      ((∀ rank, ¬two rank) → t.links = (t.links.map Links.send).map .shared) := by
  refine ⟨h.truthful hshared, fun hnone => ?_⟩
  apply NatMap.ext_get?
  intro rank
  rw [NatMap.get?_map, NatMap.get?_map, Option.map_map]
  cases hget : t.links.get? rank with
  | none => rfl
  | some links =>
    have hlist :=
      (h.truthful hshared _ (NatMap.get?_eq_some_iff.mp hget)).resolve_right (hnone rank)
    cases links with
    | shared => rfl
    | split => cases hlist

end LinkTable

def soleHolding (role : MeshRole) : IndexSet UInt64 MeshRole :=
  { holdings := [⟨1, .valid 0 role true⟩] }

def untold : (r : Request) → r.Answer
  | .post peer _ _ => .ok ⟨peer⟩
  | .wait _ => .ok ()
  | .probe _ _ => .ok ⟨1, 4⟩
  | .receive _ _ => .ok [0, 0, 0, 0]
  | .queued => .ok 0

theorem LinkTable.shared_of_used_edited :
    ∃ t : LinkTable UInt64 MeshRole, Used (fun _ => False) t ∧
    t.isShared = true ∧ t.linksTo 1 = some (.shared [⟨1, .owner, .ghost⟩]) ∧
    t.links = (t.links.map Links.send).map .shared := by
  let opened : LinkTable UInt64 MeshRole :=
    { links := NatMap.empty.insert 1 (.shared []), isShared := true, sourceRevision := some 0
      destRevision := some 0 }
  have hedit : (withSettings {} .empty).edit 1 (soleHolding .owner) =
      .ok (⟨1, soleHolding .owner, [], 0, none⟩, opened) := rfl
  have hused : Used (fun _ => False) _ :=
    (Used.fresh {} .empty).edited hedit ⟨1, soleHolding .owner, [⟨1, .owner, .ghost⟩], 0, none⟩
  obtain ⟨es, hpath, -⟩ := Program.path_under untold
    ((⟨_, soleHolding .owner, freshSlots⟩ : Sync UInt64 MeshRole).program ⟨0, 2, .basic⟩ {})
  have hsynced := Used.synced hused hpath
  refine ⟨_, hsynced, by decide +kernel, by decide +kernel, ?_⟩
  exact (shared_of_used hsynced (by decide +kernel)).2 fun _ => id

namespace Rebuild

def mixed (rank : Nat) : Rebuild UInt64 MeshRole where
  table := { settings := { strategy := .ring } }
  ends := match rank with
    | 0 => .one (soleHolding .owner)
    | _ => .two (soleHolding .overlap) (soleHolding .ghost)
  ignorePublic := false

theorem prepared_mixed : Prepared 2 (fun _ => .basic) Tag.rebuild .ring mixed := by
  have hatRest : ∀ rank < 2,
      (mixed rank).ends.source.AtRest ∧ (mixed rank).ends.dest.AtRest := by
    intro rank hrank
    match rank, hrank with
    | 0, _ => exact ⟨⟨rfl, by decide⟩, ⟨rfl, by decide⟩⟩
    | 1, _ => exact ⟨⟨rfl, by decide⟩, ⟨rfl, by decide⟩⟩
  constructor
  case speaks => exact fun _ _ => ⟨⟨rfl, rfl, rfl⟩, rfl⟩
  case source => exact fun rank hrank => (hatRest rank hrank).1
  case dest => exact fun rank hrank => (hatRest rank hrank).2
  case onRoute => exact fun _ _ => rfl
  case tag => exact fun _ _ => rfl
  case neighbourly => nofun

/-- The rank with one set is told that its lists are shared, though the only one is split; a sync
then begins and drops the half for receiving. -/
theorem shared_flag_mixed : ∃ tables : Nat → LinkTable UInt64 MeshRole,
    (beginning (.quiet 2) (fun _ => .basic) mixed).Inevitable
      (fun q => q.results = [(.ok (), tables 0), (.ok (), tables 1)]) ∧
    (tables 0).isShared = true ∧
    (tables 0).linksTo 1 = some (.split [⟨1, .owner, .ghost⟩] [⟨1, .owner, .overlap⟩]) ∧
    ∃ es r, ((⟨tables 0, soleHolding .owner, freshSlots⟩ : Sync UInt64 MeshRole).program
        ⟨0, 2, .basic⟩ {}).Path es (.done r) ∧
      r.outcome = .ok () ∧ r.table.linksTo 1 = some (.shared [⟨1, .owner, .ghost⟩]) := by
  have hyields := yields_result (n := .quiet 2) prepared_mixed (by decide)
  obtain ⟨es, hpath, -⟩ := Program.path_under untold
    ((⟨result .ring 2 mixed 0, soleHolding .owner, freshSlots⟩ : Sync UInt64 MeshRole).program
      ⟨0, 2, .basic⟩ {})
  refine ⟨result .ring 2 mixed, ?_, ?_, ?_, es, _, hpath, ?_, ?_⟩
  · exact (hyields.inevitable (by decide)).mono fun q hq => hq.1
  · rfl
  · decide +kernel
  · decide +kernel
  · decide +kernel

end Rebuild

end HaloIndex
