import HaloIndex.Halo.Builder
import HaloIndex.Link.Editor
import HaloIndex.Link.Lockstep
import HaloIndex.Proofs.IndexSet.Refinement
import HaloIndex.Proofs.Link.Pruning
import HaloIndex.Proofs.Session.Refusal
import HaloIndex.Proofs.Sync.Atomic

namespace HaloIndex

/-- What can be done with a set and the table that is used for it. -/
inductive Operation (G A : Type) where
  | call (call : Call G A)
  | rebuild
  | ensure
  | sync
  | prune
  | edit
  | clear
  | configure

/-- How an operation went. It was declined if a check refused it or if there was no need of
it. -/
inductive Verdict where
  | declined
  | failed
  | done

def Verdict.of {α β : Type} : Except Fault α → Except Fault β → Verdict
  | .error _, _ => .declined
  | .ok _, .error _ => .failed
  | .ok _, .ok _ => .done

structure Occurrence (G A : Type) where
  operation : Operation G A
  verdict : Verdict

namespace Occurrence

variable {G A : Type}

inductive Aligns : Occurrence G A → Prop where
  | rebuild : Aligns ⟨.rebuild, .done⟩
  | ensure : Aligns ⟨.ensure, .done⟩
  | sync : Aligns ⟨.sync, .done⟩
  | prune : Aligns ⟨.prune, .done⟩
  | edit : Aligns ⟨.edit, .done⟩

/-- The set is committed, or the table is cleared, on demand or since an exchange failed. -/
inductive Outdates : Occurrence G A → Prop where
  | commit : Outdates ⟨.call .commit, .done⟩
  | clear : Outdates ⟨.clear, .done⟩
  | rebuild : Outdates ⟨.rebuild, .failed⟩
  | ensure : Outdates ⟨.ensure, .failed⟩
  | sync : Outdates ⟨.sync, .failed⟩

theorem Aligns.not_outdates {e : Occurrence G A} (h : e.Aligns) : ¬e.Outdates := by
  cases h <;> nofun

/-- The table was aligned, and since the last time nothing has outdated it. -/
def Fresh (history : List (Occurrence G A)) : Prop :=
  ∃ before e after, history = before ++ e :: after ∧ e.Aligns ∧
    ∀ later ∈ after, ¬later.Aligns ∧ ¬later.Outdates

theorem not_fresh_nil : ¬Fresh ([] : List (Occurrence G A)) := by
  rintro ⟨before, e, after, hsplit, -⟩
  cases before <;> cases hsplit

theorem fresh_concat {history : List (Occurrence G A)} {e : Occurrence G A} :
    Fresh (history ++ [e]) ↔ e.Aligns ∨ ¬e.Outdates ∧ Fresh history := by
  constructor
  · rintro ⟨before, first, after, hsplit, hfirst, hafter⟩
    rcases after.eq_nil_or_concat with rfl | ⟨after, last, rfl⟩
    · obtain ⟨-, ⟨⟩⟩ := List.append_inj' hsplit rfl
      exact .inl hfirst
    · rw [List.concat_eq_append, ← List.cons_append, ← List.append_assoc] at hsplit
      obtain ⟨rfl, ⟨⟩⟩ := List.append_inj' hsplit rfl
      refine .inr ⟨(hafter e (by simp)).2, before, first, after, rfl, hfirst, ?_⟩
      exact fun later hlater => hafter later (by simp [hlater])
  · intro h
    by_cases haligns : e.Aligns
    · exact ⟨history, e, [], rfl, haligns, List.forall_mem_nil _⟩
    · obtain ⟨hkeeps, before, first, after, rfl, hfirst, hafter⟩ := h.resolve_left haligns
      refine ⟨before, first, after ++ [e], by simp, hfirst, ?_⟩
      intro later hlater
      rcases List.mem_append.mp hlater with hlater | hlater
      · exact hafter later hlater
      · obtain rfl := List.mem_singleton.mp hlater
        exact ⟨haligns, hkeeps⟩

theorem not_fresh_of_outdates {history : List (Occurrence G A)} {e : Occurrence G A}
    (h : e.Outdates) :
    ¬Fresh (history ++ [e]) := by
  rw [fresh_concat]
  rintro (haligns | ⟨hkeeps, -⟩)
  · exact haligns.not_outdates h
  · exact hkeeps h

end Occurrence

structure Site (G A : Type) where
  set : IndexSet G A
  table : LinkTable G A

namespace Site

variable {G A : Type} {x y : Site G A} {e : Occurrence G A}

/-- What becomes of the recorded revisions in an exchange that went like this. -/
inductive Restamps (x y : Site G A) : Verdict → Prop where
  | declined (hset : y.set.revision = x.set.revision)
      (hsource : y.table.sourceRevision = x.table.sourceRevision)
      (hdest : y.table.destRevision = x.table.destRevision) : Restamps x y .declined
  | failed (hsource : y.table.sourceRevision = none) : Restamps x y .failed
  | done (hsource : y.table.sourceRevision = some y.set.revision)
      (hdest : y.table.destRevision = some y.set.revision) : Restamps x y .done

inductive Effect (x y : Site G A) (e : Occurrence G A) : Prop where
  | aligned (h : e.Aligns) (hsource : y.table.sourceRevision = some y.set.revision)
      (hdest : y.table.destRevision = some y.set.revision)
  | committed (h : e.Outdates) (hset : y.set.revision = x.set.revision + 1)
    (htable : y.table = x.table)
  | emptied (h : e.Outdates) (hsource : y.table.sourceRevision = none)
  | kept (h : ¬e.Aligns) (h' : ¬e.Outdates) (hset : y.set.revision = x.set.revision)
      (hsource : y.table.sourceRevision = x.table.sourceRevision)
      (hdest : y.table.destRevision = x.table.destRevision)

theorem Restamps.effect {operation : Operation G A} {verdict : Verdict}
    (h : x.Restamps y verdict) (hdone : Occurrence.Aligns ⟨operation, .done⟩)
    (hfailed : Occurrence.Outdates ⟨operation, .failed⟩) :
    Effect x y ⟨operation, verdict⟩ := by
  cases h with
  | declined hset hsource hdest => exact .kept nofun nofun hset hsource hdest
  | failed hsource => exact .emptied hfailed hsource
  | done hsource hdest => exact .aligned hdone hsource hdest

/-- What the recorded revisions have to do with what was done. -/
structure Tracks (history : List (Occurrence G A)) (x : Site G A) : Prop where
  fresh : Occurrence.Fresh history → x.table.sourceRevision = some x.set.revision ∧
    x.table.destRevision = some x.set.revision
  stale : ¬Occurrence.Fresh history → ∀ revision, x.table.sourceRevision = some revision →
    revision < x.set.revision

theorem Tracks.concat {history : List (Occurrence G A)} (h : Tracks history x)
    (heffect : Effect x y e) :
    Tracks (history ++ [e]) y := by
  obtain ⟨hfresh, hstale⟩ := h
  cases heffect with
  | aligned haligns hsource hdest =>
    exact ⟨fun _ => ⟨hsource, hdest⟩,
      fun hnot => absurd (.inl haligns) (mt Occurrence.fresh_concat.mpr hnot)⟩
  | committed houtdates hset htable =>
    have hnot : ¬Occurrence.Fresh (history ++ [e]) := Occurrence.not_fresh_of_outdates houtdates
    refine ⟨fun h => absurd h hnot, fun _ revision hrevision => ?_⟩
    rw [htable] at hrevision
    by_cases hold : Occurrence.Fresh history
    · have hlatest := (hfresh hold).1
      rw [hrevision] at hlatest
      cases hlatest
      omega
    · have hbelow := hstale hold revision hrevision
      omega
  | emptied houtdates hsource =>
    have hnot : ¬Occurrence.Fresh (history ++ [e]) := Occurrence.not_fresh_of_outdates houtdates
    refine ⟨fun h => absurd h hnot, fun _ revision hrevision => ?_⟩
    rw [hsource] at hrevision
    cases hrevision
  | kept haligns houtdates hset hsource hdest =>
    have hsame : Occurrence.Fresh (history ++ [e]) ↔ Occurrence.Fresh history := by
      rw [Occurrence.fresh_concat, or_iff_right haligns, and_iff_right houtdates]
    constructor
    · rw [hsame, hset, hsource, hdest]
      exact hfresh
    · rw [hsame, hset, hsource]
      exact hstale

variable [Scalar G] [Role A] [LT G] [LT A] [DecidableEq G] [DecidableEq A] [DecidableLT G]
  [DecidableLT A]

def Brings (x : Site G A) (b : Rebuild G A) : Prop :=
  b.table = x.table ∧ b.ends.source = x.set ∧ b.ends.dest = x.set

/-- Something is done, legal or not, in whatever company and over whatever transport. -/
inductive Step (x : Site G A) : Occurrence G A → Site G A → Prop where
  | called {call : Call G A} {count : Option Nat} {set : IndexSet G A}
      (h : x.set.answer call = (.ok count, set)) : Step x ⟨.call call, .done⟩ { x with set }
  | uncalled {call : Call G A} {f : Fault} {set : IndexSet G A}
    (h : x.set.answer call = (.error f, set)) :
    Step x ⟨.call call, .declined⟩ { x with set }
  | rebuilt {b : Rebuild G A} {s : Station} {es : List Event}
      {r : Except Fault Unit × LinkTable G A}
      (hb : x.Brings b) (hpath : (b.program s).Path es (.done r)) :
    Step x ⟨.rebuild, .of (b.checked s) r.1⟩ { x with table := r.2 }
  /-- The vote failed, or all tables are fresh. -/
  | unneeded {b : Rebuild G A} {s : Station} {es fs : List Event} {vote : Except Fault Bool}
      {r : Except Fault Bool × LinkTable G A} (hb : x.Brings b)
      (hvote : (b.vote s).Path es (.done vote))
      (hkeep : vote ≠ .ok false) (hpath : (b.goBy s vote).Path fs (.done r)) :
    Step x ⟨.ensure, .declined⟩ { x with table := r.2 }
  | ensured {b : Rebuild G A} {s : Station} {es fs : List Event}
      {r : Except Fault Bool × LinkTable G A}
      (hb : x.Brings b) (hvote : (b.vote s).Path es (.done (.ok false)))
      (hpath : (b.goBy s (.ok false)).Path fs (.done r)) :
    Step x ⟨.ensure, .of (b.checked s) r.1⟩ { x with table := r.2 }
  | synced {s : Station} {settings : SyncSettings} {numbering : Numbering G} {es : List Event}
      {r : SyncResult G A}
      (hpath : (x.table.sync s x.set settings numbering).Path es (.done r)) :
    Step x ⟨.sync, .of (x.table.checkSyncable x.set) r.outcome⟩ ⟨r.set, r.table⟩
  | pruned {count : Nat} {table : LinkTable G A}
    (h : x.table.prune x.set x.set = .ok (count, table)) :
    Step x ⟨.prune, .done⟩ { x with table }
  | unpruned {f : Fault} (h : x.table.prune x.set x.set = .error f) :
    Step x ⟨.prune, .declined⟩ x
  | edited {rank : Nat} {opened : LinkEditor G A} {table : LinkTable G A}
      (h : x.table.edit rank x.set = .ok (opened, table)) (closed : LinkEditor G A) :
    Step x ⟨.edit, .done⟩ { x with table := table.adopt closed }
  | unedited {rank : Nat} {f : Fault} (h : x.table.edit rank x.set = .error f) :
    Step x ⟨.edit, .declined⟩ x
  | cleared : Step x ⟨.clear, .done⟩ { x with table := x.table.clear }
  | configured (settings : TableSettings) (neighbours : RankSet) :
    Step x ⟨.configure, .done⟩ { x with table := { x.table with settings, neighbours } }

inductive Run (x : Site G A) : List (Occurrence G A) → Site G A → Prop where
  | nil : Run x [] x
  | concat {history : List (Occurrence G A)} {e : Occurrence G A} {y z : Site G A}
      (h : Run x history y) (hstep : Step y e z) : Run x (history ++ [e]) z

theorem restamps_of_rebuild {b : Rebuild G A} (hb : x.Brings b) {s : Station} {es : List Event}
    {r : Except Fault Unit × LinkTable G A} (hpath : (b.program s).Path es (.done r)) :
    x.Restamps { x with table := r.2 } (.of (b.checked s) r.1) := by
  obtain ⟨htable, hsource, hdest⟩ := hb
  cases hchecked : b.checked s with
  | error f =>
    rw [Rebuild.program_of_error hchecked] at hpath
    obtain ⟨-, he⟩ := hpath.of_done
    cases he
    rw [htable]
    split
    · exact .declined rfl (by rw [← htable]; rfl) (by rw [← htable]; rfl)
    · exact .declined rfl rfl rfl
  | ok route =>
    rw [Rebuild.program_of_ok hchecked] at hpath
    obtain ⟨outcome, fs, gs, -, -, hlast⟩ := hpath.of_bind
    obtain ⟨-, he⟩ := hlast.of_done
    cases he
    cases outcome with
    | error f => exact .failed rfl
    | ok links =>
      exact .done (congrArg (fun set : IndexSet G A => some set.revision) hsource)
        (congrArg (fun set : IndexSet G A => some set.revision) hdest)

theorem restamps_of_ensure {b : Rebuild G A} (hb : x.Brings b) {s : Station} {es : List Event}
    {r : Except Fault Bool × LinkTable G A} (hpath : (b.goBy s (.ok false)).Path es (.done r)) :
    x.Restamps { x with table := r.2 } (.of (b.checked s) r.1) := by
  obtain ⟨⟨outcome, table⟩, fs, gs, -, hrebuild, hlast⟩ := hpath.of_bind
  obtain ⟨-, he⟩ := hlast.of_done
  cases he
  have hrestamps := restamps_of_rebuild hb hrebuild
  cases hchecked : b.checked s <;> cases outcome <;> rw [hchecked]
    at hrestamps <;> exact hrestamps

theorem restamps_of_sync {s : Station} {settings : SyncSettings} {numbering : Numbering G}
    {es : List Event} {r : SyncResult G A}
    (hpath : (x.table.sync s x.set settings numbering).Path es (.done r)) :
    x.Restamps ⟨r.set, r.table⟩ (.of (x.table.checkSyncable x.set) r.outcome) := by
  let b : Sync G A := ⟨x.table, x.set, numbering⟩
  change (b.program s settings).Path es (.done r) at hpath
  cases hchecked : x.table.checkSyncable x.set with
  | error f =>
    obtain ⟨-, -, -, hset, htable⟩ :=
      (Sync.atomic_of_refused (b := b) hchecked hpath).refused f hchecked
    rw [hset, htable]
    exact .declined rfl rfl rfl
  | ok =>
    obtain ⟨outcome, d, rfl, hphase⟩ := Sync.exists_settle (b := b) hchecked hpath
    cases outcome with
    | error f => exact .failed rfl
    | ok =>
      rw [Sync.settle_ok (IndexSet.commit_eq hphase)]
      exact .done rfl rfl

theorem effect_of_step (h : x.Step e y) : Effect x y e := by
  cases h with
  | @called call count set h =>
    by_cases hcommit : call = .commit
    · subst hcommit
      cases IndexSet.effect_of_answer h with
      | commits => exact .committed .commit rfl rfl
    · refine .kept nofun ?_ (IndexSet.revision_answer hcommit h) rfl rfl
      rintro ⟨⟩
      exact hcommit rfl
  | uncalled h =>
    obtain rfl := IndexSet.eq_of_refused h
    exact .kept nofun nofun rfl rfl rfl
  | rebuilt hb hpath => exact (restamps_of_rebuild hb hpath).effect .rebuild .rebuild
  | @unneeded b s es fs vote r hb hvote hkeep hpath =>
    rcases vote with f | (_ | _)
    · obtain ⟨-, he⟩ := hpath.of_done
      cases he
      exact .kept nofun nofun rfl (congrArg _ hb.1) (congrArg _ hb.1)
    · exact absurd rfl hkeep
    · obtain ⟨-, he⟩ := hpath.of_done
      cases he
      exact .kept nofun nofun rfl (congrArg _ hb.1) (congrArg _ hb.1)
  | ensured hb hvote hpath => exact (restamps_of_ensure hb hpath).effect .ensure .ensure
  | synced hpath => exact (restamps_of_sync hpath).effect .sync .sync
  | pruned h =>
    obtain ⟨-, h⟩ := IndexSet.ok_of_require h
    obtain ⟨-, h⟩ := IndexSet.ok_of_require h
    cases h
    exact .aligned .prune rfl rfl
  | unpruned => exact .kept nofun nofun rfl rfl rfl
  | edited h =>
    obtain ⟨-, h⟩ := IndexSet.ok_of_require h
    split at h <;> cases h
    exact .aligned .edit rfl rfl
  | unedited => exact .kept nofun nofun rfl rfl rfl
  | cleared => exact .emptied .clear rfl
  | configured => exact .kept nofun nofun rfl rfl rfl

theorem Run.tracks {set : IndexSet G A} {settings : TableSettings} {neighbours : RankSet}
    {history : List (Occurrence G A)}
    (h : Run ⟨set, .withSettings settings neighbours⟩ history x) :
    Tracks history x := by
  induction h with
  | nil => exact ⟨fun hfresh => absurd hfresh Occurrence.not_fresh_nil, fun _ => nofun⟩
  | concat _ hstep ih => exact ih.concat (effect_of_step hstep)

def staleness (x : Site G A) : Fault :=
  .staleTable x.set.revision x.table.sourceRevision x.set.revision x.table.destRevision

/-- The table is turned down by all that go by its links, and nothing is changed by that. -/
structure Refuses (x : Site G A) : Prop where
  build : ∀ (p : HaloPlan) (f : RoleFilter A),
    p.build x.table x.set x.set f = (.error x.staleness, p)
  iterate : ∀ side, Lockstep.ofTable x.table side x.set x.set = .error x.staleness
  sync : ∀ (s : Station) (settings : SyncSettings) (numbering : Numbering G) es r,
    (x.table.sync s x.set settings numbering).Path es (.done r) →
      es = [] ∧ (∃ f, r.outcome = .error f) ∧ r.set = x.set ∧ r.table = x.table

theorem refuses_of_stale (h : x.table.isSynced x.set x.set = false) : x.Refuses := by
  have hcheck : x.table.checkSynced x.set x.set = .error x.staleness := by
    rw [LinkTable.checkSynced, h]
    rfl
  constructor
  case build =>
    intro p f
    rw [HaloPlan.build, HaloPlan.stepsOfSynced, hcheck]
    rfl
  case iterate =>
    intro side
    rw [Lockstep.ofTable, hcheck]
    rfl
  case sync =>
    intro s settings numbering es r hpath
    cases hchecked : x.table.checkSyncable x.set with
    | error f =>
      obtain ⟨houtcome, -, hevents, hset, htable⟩ :=
        (Sync.atomic_of_refused
          (b := ⟨x.table, x.set, numbering⟩) hchecked hpath).refused f hchecked
      exact ⟨hevents, ⟨f, houtcome⟩, hset, htable⟩
    | ok =>
      obtain ⟨-, -, hsynced, -⟩ := LinkTable.checkSyncable_eq_ok_iff.mp hchecked
      rw [h] at hsynced
      cases hsynced

/-- However a set and a table of its own have been used, the table passes for aligned just if
something has aligned it and, since the last time, there was no commit, it was not cleared, and
no rebuild or sync has failed after its checks. Otherwise no interface, no walk through the lists
and no sync can be had from it. -/
theorem isSynced_iff_fresh {set : IndexSet G A} {settings : TableSettings} {neighbours : RankSet}
    {history : List (Occurrence G A)}
    (h : Run ⟨set, .withSettings settings neighbours⟩ history x) :
    (x.table.isSynced x.set x.set = true ↔ Occurrence.Fresh history) ∧
      (¬Occurrence.Fresh history → x.Refuses) := by
  obtain ⟨hfresh, hstale⟩ := h.tracks
  have hiff : x.table.isSynced x.set x.set = true ↔ Occurrence.Fresh history := by
    constructor
    · intro hsynced
      rw [LinkTable.isSynced, Bool.and_eq_true, beq_iff_eq] at hsynced
      by_contra hnot
      exact absurd (hstale hnot _ hsynced.1) (Nat.lt_irrefl _)
    · intro h
      obtain ⟨hsource, hdest⟩ := hfresh h
      simp [LinkTable.isSynced, hsource, hdest]
  refine ⟨hiff, fun hnot => refuses_of_stale ?_⟩
  rw [← hiff, Bool.not_eq_true] at hnot
  exact hnot

def untouched : Site UInt64 MeshRole := ⟨.empty, .withSettings {} .empty⟩

def outgrown : List (Occurrence UInt64 MeshRole) :=
  [⟨.rebuild, .done⟩, ⟨.call .beginResize, .done⟩, ⟨.call (.add ⟨1, .owner⟩ true none), .done⟩,
    ⟨.call .commit, .done⟩]

theorem isSynced_iff_fresh_outgrown : ∃ x y : Site UInt64 MeshRole,
    Run untouched outgrown x ∧ x.table.isSynced x.set x.set = false ∧ x.Refuses ∧
      Run untouched (outgrown ++ [⟨.prune, .done⟩]) y ∧ y.table.isSynced y.set y.set = true := by
  let b : Rebuild UInt64 MeshRole := ⟨untouched.table, .one untouched.set, false⟩
  have hrebuilt : untouched.Step ⟨.rebuild, .done⟩ _ :=
    .rebuilt (b := b) (s := ⟨0, 1, .basic⟩) ⟨rfl, rfl, rfl⟩ (.refl _)
  have hopened : Run untouched (outgrown.take 2) _ :=
    (Run.nil.concat hrebuilt).concat (.called rfl)
  have hadded : Run untouched (outgrown.take 3) _ := hopened.concat (.called rfl)
  have hrun : Run untouched outgrown _ := hadded.concat (.called rfl)
  have hpruned := hrun.concat (.pruned rfl)
  have hstale : ¬Occurrence.Fresh (outgrown.take 3 ++ [⟨.call .commit, .done⟩]) :=
    Occurrence.not_fresh_of_outdates .commit
  have hlast : Occurrence.Fresh (outgrown ++ [⟨.prune, .done⟩]) :=
    Occurrence.fresh_concat.mpr (.inl .prune)
  obtain ⟨hiff, hrefuses⟩ := isSynced_iff_fresh hrun
  refine ⟨_, _, hrun, ?_, hrefuses hstale, hpruned, (isSynced_iff_fresh hpruned).1.mpr hlast⟩
  rw [← Bool.not_eq_true, hiff]
  exact hstale

end Site

end HaloIndex
