import HaloIndex.Proofs.IndexSet.Later
import HaloIndex.Proofs.Link.Pruning
import HaloIndex.Proofs.Session.Sharing
import HaloIndex.Proofs.Sync.Resolution

namespace HaloIndex

theorem NatMap.exists_of_map_eq {α β : Type} {m n : NatMap α} {f : α → β} (h : m.map f = n.map f)
    {e : Nat × α} (he : e ∈ m.entries) : ∃ e' ∈ n.entries, f e'.2 = f e.2 := by
  have hin : (e.1, f e.2) ∈ (m.map f).entries := List.mem_map.mpr ⟨e, he, rfl⟩
  rw [h] at hin
  obtain ⟨e', he', hsame⟩ := List.mem_map.mp hin
  exact ⟨e', he', congrArg Prod.snd hsame⟩

variable {G A : Type} [LT G] [LT A] [DecidableEq G] [DecidableEq A] [DecidableLT G]
  [DecidableLT A] [Scalar G] [Role A]

inductive Endpoints.Later : Endpoints G A → Endpoints G A → Prop where
  | one {set set' : IndexSet G A} (h : set.Later set') : Later (.one set) (.one set')
  | two {source source' dest dest' : IndexSet G A} (hsource : source.Later source')
      (hdest : dest.Later dest') : Later (.two source dest) (.two source' dest')

namespace Endpoints.Later

variable {ends ends' : Endpoints G A}

theorem source (h : ends.Later ends') : ends.source.Later ends'.source := by
  cases h with
  | one h => exact h
  | two hsource => exact hsource

theorem dest (h : ends.Later ends') : ends.dest.Later ends'.dest := by
  cases h with
  | one h => exact h
  | two _ hdest => exact hdest

theorem isOne (h : ends.Later ends') : ends'.isOne = ends.isOne := by
  cases h <;> rfl

end Endpoints.Later

namespace LinkTable

/-- What a table has in common with the sets it was just made for. Lists for both directions are
kept only where both directions are about one set. -/
structure Fits (t : LinkTable G A) (ends : Endpoints G A) : Prop where
  source : ends.source.WellFormed
  dest : ends.dest.WellFormed
  resolved : HaloPlan.Resolved t ends.source ends.dest
  synced : t.isSynced ends.source ends.dest = true
  shape : ends.isOne = true ∨ ∀ e ∈ t.links.entries, e.2.isShared = false

/-- A table with the sets it was last made for or pruned for. -/
inductive Obtained : LinkTable G A → Endpoints G A → Prop where
  | rebuilt {b : Rebuild G A} {s : Station} {es : List Event} {t : LinkTable G A}
      (hsource : b.ends.source.WellFormed) (hdest : b.ends.dest.WellFormed)
      (hpath : (b.program s).Path es (.done (.ok (), t))) : Obtained t b.ends
  | synced {b : Sync G A} {s : Station} {settings : SyncSettings} {es : List Event}
      {r : SyncResult G A}
      (hset : b.set.WellFormed) (hpath : (b.program s settings).Path es (.done r))
      (hok : r.outcome = .ok ()) : Obtained r.table (.one r.set)
  | pruned {t t' : LinkTable G A} {ends ends' : Endpoints G A} {count : Nat}
      (h : Obtained t ends)
      (hlater : ends.Later ends') (hprune : t.prune ends'.source ends'.dest = .ok (count, t')) :
      Obtained t' ends'

variable [IsStrictTotalOrder G (· < ·)] [IsStrictTotalOrder A (· < ·)] {t u : LinkTable G A}
  {ends ends' : Endpoints G A}

omit [Scalar G] [Role A] in
theorem Pruned.resolved {source dest : IndexSet G A} {count : Nat}
    (h : t.Pruned source dest count u) (hsource : Ascending source.keys)
    (hdest : Ascending dest.keys) : HaloPlan.Resolved u source dest := by
  refine ⟨fun e he l hl => ?_, fun e he l hl => ?_⟩
  · rw [← sendTo_of_mem he, h.send, List.mem_filter, decide_eq_true_eq] at hl
    exact (IndexSet.isSome_slotOf?_iff hsource).mpr hl.2
  · rw [← receiveFrom_of_mem he, h.receive, List.mem_filter, decide_eq_true_eq] at hl
    exact (IndexSet.isSome_slotOf?_iff hdest).mpr hl.2

theorem Fits.prune (h : t.Fits ends) (hlater : ends.Later ends')
    (hground : ends'.source.phase = .ground) (hground' : ends'.dest.phase = .ground) : ∃ count u,
      t.prune ends'.source ends'.dest = .ok (count, u) ∧
      t.Pruned ends'.source ends'.dest count u ∧
        u.Fits ends' := by
  have hsource := hlater.source.wellFormed h.source
  have hdest := hlater.dest.wellFormed h.dest
  have hshape : ends'.source = ends'.dest ∨ ∀ e ∈ t.links.entries, e.2.isShared = false :=
    h.shape.imp_left fun hone => (Endpoints.dest_eq_source (hlater.isOne.trans hone)).symm
  obtain ⟨count, u, hprune, hpruned⟩ :=
    prune_exact hsource.ascending hdest.ascending hground hground' hshape
  refine ⟨count, u, hprune, hpruned, hsource, hdest,
    hpruned.resolved hsource.ascending hdest.ascending, hpruned.synced, ?_⟩
  rcases h.shape with hone | hsplit
  · exact .inl (hlater.isOne.trans hone)
  · right
    intro e he
    obtain ⟨e', he', hsame⟩ := NatMap.exists_of_map_eq hpruned.shapes he
    exact hsame ▸ hsplit e' he'

theorem fits_of_rebuild {b : Rebuild G A} {s : Station} {es : List Event}
    (hsource : b.ends.source.WellFormed) (hdest : b.ends.dest.WellFormed)
    (hpath : (b.program s).Path es (.done (.ok (), t))) : t.Fits b.ends := by
  generalize hresult : ((.ok (), t) : Except Fault Unit × LinkTable G A) = r at hpath
  cases Rebuild.ends_of_path hpath with
  | refused => cases hresult
  | failed => cases hresult
  | @rebuilt route links hground hground' hroute horigin =>
    cases hresult
    refine ⟨hsource, hdest, ⟨fun e he l hl => ?_, fun e he l hl => ?_⟩, isSynced_align .., ?_⟩
    · rw [IndexSet.isSome_slotOf?_iff hsource.ascending]
      exact ((horigin e he).publishes.1 l hl).mem_keys
    · rw [IndexSet.isSome_slotOf?_iff hdest.ascending]
      exact ((horigin e he).publishes.2 l hl).mem_keys
    · cases hone : b.ends.isOne with
      | true => exact .inl rfl
      | false =>
        right
        intro e he
        obtain ⟨other, ownKeys, heq⟩ := (horigin e he).exists_linksWith
        rw [heq, Publication.isShared_linksWith, Rebuild.published]
        cases hends : b.ends with
        | one =>
          rw [hends] at hone
          cases hone
        | two => rfl

theorem Obtained.fits (h : Obtained t ends) : t.Fits ends := by
  induction h with
  | rebuilt hsource hdest hpath => exact fits_of_rebuild hsource hdest hpath
  | synced hset hpath hok =>
    obtain ⟨hwell, -, hresolved, hsynced⟩ := Sync.resolved_of_path hset hpath hok
    exact ⟨hwell, hwell, hresolved, hsynced, .inl rfl⟩
  | pruned _ hlater hprune ih =>
    obtain ⟨hground, hrest⟩ := IndexSet.ok_of_require hprune
    obtain ⟨hground', -⟩ := IndexSet.ok_of_require hrest
    obtain ⟨count, u, hpruned, -, hfits⟩ := ih.prune hlater hground hground'
    cases hprune.symm.trans hpruned
    exact hfits

/-- Until the next commit the table still is up to date, and its links keep their slots. -/
theorem Fits.build (h : t.Fits ends) (hlater : ends.Later ends')
    (hground : ends'.source.phase = .ground) (hground' : ends'.dest.phase = .ground)
    (hsource : ends'.source.revision = ends.source.revision)
    (hdest : ends'.dest.revision = ends.dest.revision) (f : RoleFilter A) :
    ∃ plan : HaloPlan, ∀ old : HaloPlan,
    old.build t ends'.source ends'.dest f = (.ok (), plan) := by
  have hresolves {set set' : IndexSet G A} (hset : set.WellFormed) (hlater : set.Later set')
      (hrevision : set'.revision = set.revision) {links : List (Link G A)}
        (hlinks : set.Resolves links) :
      set'.Resolves links := by
    intro l hl
    rw [IndexSet.isSome_slotOf?_iff (hlater.wellFormed hset).ascending, hlater.keys hrevision,
      ← IndexSet.isSome_slotOf?_iff hset.ascending]
    exact hlinks l hl
  have hresolved : HaloPlan.Resolved t ends'.source ends'.dest :=
    ⟨fun e he => hresolves h.source hlater.source hsource (h.resolved.send e he),
      fun e he => hresolves h.dest hlater.dest hdest (h.resolved.receive e he)⟩
  have hsynced : t.isSynced ends'.source ends'.dest = true := by
    rw [isSynced, hsource, hdest]
    exact h.synced
  obtain ⟨plan, hplan, -⟩ := HaloPlan.build_slots hground hground' hresolved hsynced f
  exact ⟨plan, hplan⟩

/-- A table that comes out of a rebuild, a sync or a pruning has a slot for every link. However
its sets are changed later, pruning drops exactly the links whose key is gone, and as long as
there is no commit every halo plan can be built. -/
theorem obtained_fits (h : Obtained t ends) :
    HaloPlan.Resolved t ends.source ends.dest ∧ t.isSynced ends.source ends.dest = true ∧
    ∀ ends', ends.Later ends' → ends'.source.phase = .ground → ends'.dest.phase = .ground →
      (∃ count u, t.prune ends'.source ends'.dest = .ok (count, u) ∧
        t.Pruned ends'.source ends'.dest count u ∧ Obtained u ends' ∧
        HaloPlan.Resolved u ends'.source ends'.dest) ∧
      (ends'.source.revision = ends.source.revision → ends'.dest.revision = ends.dest.revision →
        ∀ f : RoleFilter A, ∃ plan : HaloPlan, ∀ old : HaloPlan,
          old.build t ends'.source ends'.dest f = (.ok (), plan)) := by
  have hfits := h.fits
  refine ⟨hfits.resolved, hfits.synced, fun ends' hlater hground hground' => ⟨?_, ?_⟩⟩
  · obtain ⟨count, u, hprune, hpruned, hfits'⟩ := hfits.prune hlater hground hground'
    exact ⟨count, u, hprune, hpruned, h.pruned hlater hprune, hfits'.resolved⟩
  · exact hfits.build hlater hground hground'

end LinkTable

def told : (r : Request) → r.Answer
  | .receive _ _ => (Rebuild.mixed 1).published.encode .basic
  | r => untold r

def emptied : IndexSet UInt64 MeshRole := { revision := 1 }

theorem later_emptied : (soleHolding .owner).Later emptied := by
  let opened : IndexSet UInt64 MeshRole := { soleHolding .owner with phase := .resize }
  let flagged : IndexSet UInt64 MeshRole :=
    { opened with holdings := [⟨1, ⟨⟨0, .deleted⟩, .owner, true⟩⟩] }
  have hbegin : (soleHolding .owner).answer .beginResize = (.ok none, opened) := rfl
  have hdelete : opened.answer (.deleteGlobal 1) = (.ok (some 1), flagged) := by decide +kernel
  have hcommit : flagged.answer .commit = (.ok none, emptied) := by decide_cbv
  exact .tail (.tail (.single (.answer hbegin)) (.answer hdelete)) (.answer hcommit)

theorem LinkTable.obtained_fits_mixed : ∃ t u : LinkTable UInt64 MeshRole,
    Obtained t (.one (soleHolding .owner)) ∧
    t.linksTo 1 = some (.split [⟨1, .owner, .ghost⟩] [⟨1, .owner, .overlap⟩]) ∧
    HaloPlan.Resolved t (soleHolding .owner) (soleHolding .owner) ∧
    (∀ f : RoleFilter MeshRole, ∃ plan : HaloPlan, ∀ old : HaloPlan,
      old.build t (soleHolding .owner) (soleHolding .owner) f = (.ok (), plan)) ∧
    t.prune emptied emptied = .ok (2, u) ∧ t.Pruned emptied emptied 2 u ∧
    u.linksTo 1 = some (.split [] []) := by
  obtain ⟨es, hpath, -⟩ := Program.path_under told ((Rebuild.mixed 0).program ⟨0, 2, .basic⟩)
  have hwell : (soleHolding .owner).WellFormed := .of_settled (by decide) rfl rfl (by decide)
  have hresult : ((Rebuild.mixed 0).program ⟨0, 2, .basic⟩).under told =
      (.ok (), (((Rebuild.mixed 0).program ⟨0, 2, .basic⟩).under told).2) := by decide +kernel
  rw [hresult] at hpath
  have hobtained : Obtained _ (.one (soleHolding .owner)) :=
    Obtained.rebuilt (b := Rebuild.mixed 0) hwell hwell hpath
  obtain ⟨hresolved, -, hlater⟩ := obtained_fits hobtained
  have hbuild := (hlater _ (.one .refl) rfl rfl).2 rfl rfl
  obtain ⟨count, u, hprune, hpruned, -⟩ := (hlater _ (.one later_emptied) rfl rfl).1
  obtain rfl : count = 2 := hpruned.count.trans (by decide +kernel)
  obtain rfl : u = _ :=
    congrArg Prod.snd (Except.ok.inj (hprune.symm.trans (prune_eq rfl rfl _)))
  exact ⟨_, _, hobtained, by decide +kernel, hresolved, hbuild, hprune, hpruned,
    by decide +kernel⟩

end HaloIndex
