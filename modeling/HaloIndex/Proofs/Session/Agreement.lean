import HaloIndex.Proofs.Session.Refresh
import HaloIndex.Proofs.Transport.Reduction

namespace HaloIndex

namespace Rebuild

variable {G A : Type}

/-- The table is aligned and was built with the treatment of public flags that is asked for
now. -/
def isFresh (b : Rebuild G A) : Bool :=
  b.table.publicIgnored == b.ignorePublic && b.table.isSynced b.ends.source b.ends.dest

def allFresh (size : Nat) (b : Nat → Rebuild G A) : Bool :=
  (List.range size).all fun rank => (b rank).isFresh

def vote (b : Rebuild G A) (s : Station) : Program (Except Fault Bool) :=
  (s.reduceAnd b.isFresh).run

variable [Scalar G] [Role A] [LT G] [LT A] [DecidableEq G] [DecidableEq A] [DecidableLT G]
  [DecidableLT A]

def ensure (b : Rebuild G A) (s : Station) : Program (Except Fault Bool × LinkTable G A) :=
  b.table.ensureSynced s b.ends b.ignorePublic

def goBy (b : Rebuild G A) (s : Station) :
    Except Fault Bool → Program (Except Fault Bool × LinkTable G A)
  | .error f => return (.error f, b.table)
  | .ok true => return (.ok false, b.table)
  | .ok false => b.program s >>= fun r => return (r.1.map fun _ => true, r.2)

theorem ensure_eq (b : Rebuild G A) (s : Station) : b.ensure s = b.vote s >>= b.goBy s := by
  rw [ensure, LinkTable.ensureSynced]
  refine congrArg (b.vote s >>= ·) (funext fun outcome => ?_)
  rcases outcome with f | (_ | _) <;> rfl

def ensuring (n : Network) (registry : Nat → Registry) (b : Nat → Rebuild G A) :
    Pool (Except Fault Bool × LinkTable G A) :=
  .ofRanks n fun rank => (b rank).ensure ⟨rank, n.size, registry rank⟩

/-- All ranks have ended with this answer and these tables, and no message is left over. After
its vote a rank has gone through one rebuild or has done nothing. -/
structure Decided (n : Network) (registry : Nat → Registry) (b : Nat → Rebuild G A)
    (rebuilt : Bool) (tables : Nat → LinkTable G A) (log : List (Nat × Event))
    (q : Pool (Except Fault Bool × LinkTable G A)) :
    Prop where
  results : q.results = (List.range n.size).map fun rank => (.ok rebuilt, tables rank)
  traffic : q.network.traffic = n.traffic
  events : ∀ rank < n.size, ∃ es fs, eventsOf rank log = es ++ fs ∧
    ((b rank).vote ⟨rank, n.size, registry rank⟩).Path es (.done (.ok !rebuilt)) ∧
    if rebuilt then ((b rank).program ⟨rank, n.size, registry rank⟩).Path fs
      (.done (.ok (), tables rank))
    else fs = []

/-- All ranks keep their tables if all of these are fresh, and otherwise all rebuild them to
these tables; they do end well unless they publish more than can be counted. -/
structure Agrees (n : Network) (registry : Nat → Registry) (b : Nat → Rebuild G A)
    (tables : Nat → LinkTable G A) : Prop where
  keep : allFresh n.size b = true →
    (ensuring n registry b).Settles (Decided n registry b false fun rank => (b rank).table)
  ofDone : allFresh n.size b = false → ∀ log q, Pool.Run (ensuring n registry b) log q →
    (∀ task ∈ q.tasks, ∃ r, task.program = .done r ∧ ∃ rebuilt, r.1 = .ok rebuilt) →
    Decided n registry b true tables log q
  rebuild : allFresh n.size b = false → Countable n.size b →
    (ensuring n registry b).Settles (Decided n registry b true tables)

variable {n : Network} {registry : Nat → Registry} {b : Nat → Rebuild G A}

omit [Scalar G] [Role A] [LT G] [LT A] [DecidableEq G] [DecidableEq A] [DecidableLT G]
  [DecidableLT A] in
theorem vote_concludes (registry : Nat → Registry) (b : Nat → Rebuild G A)
    (hclear : n.traffic.Clear Tag.collective) : ∃ es, Concludes n.traffic
      (fun rank => (b rank).vote ⟨rank, n.size, registry rank⟩) es fun _ =>
      .ok (allFresh n.size b) :=
  Station.reduceAnd_concludes registry hclear fun rank => (b rank).isFresh

theorem decided_of_concludes {rebuilt : Bool} {tables : Nat → LinkTable G A}
    {es fs : Nat → List Event}
    (hvote : Concludes n.traffic (fun rank => (b rank).vote ⟨rank, n.size, registry rank⟩) es
      fun _ => .ok !rebuilt)
    (hrest : Concludes n.traffic
      (fun rank => (b rank).goBy ⟨rank, n.size, registry rank⟩ (.ok !rebuilt)) fs
      fun rank => (.ok rebuilt, tables rank))
    (hevents : ∀ rank < n.size, if rebuilt then
      ((b rank).program ⟨rank, n.size, registry rank⟩).Path (fs rank)
      (.done (.ok (), tables rank))
      else fs rank = []) :
    (ensuring n registry b).Settles (Decided n registry b rebuilt tables) := by
  have hboth := hvote.bind (g := fun rank => (b rank).goBy ⟨rank, n.size, registry rank⟩) hrest
  have hensure := hboth.congr (fun rank _ => ((b rank).ensure_eq _).symm) fun _ _ => rfl
  refine hensure.settles.mono fun log q ⟨hresults, htraffic, hlog⟩ => ⟨hresults, htraffic, ?_⟩
  exact fun rank hrank => ⟨_, _, hlog rank hrank, hvote.paths rank hrank, hevents rank hrank⟩

variable {tag : Tag} {route : Route}

theorem countable_of_ensured (h : Prepared n.size registry tag route b)
    (hclear : n.traffic.Clear Tag.collective) (hstale : allFresh n.size b = false)
    {q : Pool (Except Fault Bool × LinkTable G A)}
    (hq : Relation.ReflTransGen Pool.Step (ensuring n registry b) q)
    (hdone : ∀ task ∈ q.tasks, ∃ r, task.program = .done r ∧ ∃ rebuilt, r.1 = .ok rebuilt) :
    Countable n.size b := by
  obtain ⟨es, hvote⟩ := vote_concludes registry b hclear
  rw [hstale] at hvote
  apply countable_of_packs registry
  intro rank hrank hquits fault hencode
  -- A rank that were told otherwise would not rebuild, so this is only promised of what follows
  -- the vote.
  have hstops : ((b rank).goBy ⟨rank, n.size, registry rank⟩ (.ok false)).Always
      fun r => ¬∃ rebuilt, r.1 = .ok rebuilt := by
    apply (program_unpacked h hrank hquits hencode).bind
    rintro ⟨outcome, table⟩ hfailed ⟨rebuilt, hok⟩
    cases outcome with
    | error => cases hok
    | ok => exact hfailed rfl
  simp only [ensuring, ensure_eq] at hq
  obtain ⟨value, hnot, hended⟩ := hvote.exists_ended hrank hstops hq hdone
  exact hnot hended

variable [LawfulScalar G] [LawfulRole A]

/-- However the ranks are interleaved, all of them are given the same answer. It is that no
rebuild was needed just if all tables were fresh, and else the tables are those of a rebuild of
all ranks. -/
theorem ensure_agrees (h : Prepared n.size registry tag route b)
    (hclear : ∀ source < n.size, ∀ dest < n.size, n.channel source dest tag = [])
    (hclear' : ∀ source < n.size, ∀ dest < n.size, n.channel source dest Tag.collective = []) :
    Yields n registry b (result route n.size b) ∧ Agrees n registry b (result route n.size b) ∧
      ∀ rank, { b rank with
        table := result route n.size b rank : Rebuild G A }.isFresh = true := by
  obtain ⟨es, hvote⟩ := vote_concludes registry b hclear'
  have hrebuild : allFresh n.size b = false → Countable n.size b →
      (ensuring n registry b).Settles (Decided n registry b true (result route n.size b)) := by
    intro hstale hfits
    obtain ⟨fs, hconcludes⟩ := rebuild_concludes (t := n.traffic) (h.rebuilds hfits) hclear
    rw [hstale] at hvote
    exact decided_of_concludes hvote
      (hconcludes.map fun _ r =>
        ((r.1.map fun _ => true, r.2) : Except Fault Bool × LinkTable G A))
      hconcludes.paths
  have hkeep : allFresh n.size b = true →
      (ensuring n registry b).Settles
        (Decided n registry b false fun rank => (b rank).table) := by
    intro hfresh
    rw [hfresh] at hvote
    exact decided_of_concludes hvote (.of_done fun _ _ => rfl) fun _ _ => rfl
  refine ⟨yields_result h hclear, ⟨hkeep, fun hstale log q hr hdone => ?_, hrebuild⟩,
    fun rank => ?_⟩
  · have hfits := countable_of_ensured h hclear' hstale hr.reaches hdone
    exact ((hrebuild hstale hfits).stops log q hr).resolve_left
      (Pool.not_step_of_done fun task htask => (hdone task htask).imp fun _ hr => hr.1)
  · rw [isFresh, Bool.and_eq_true, beq_iff_eq]
    exact ⟨rfl, LinkTable.isSynced_align ..⟩

/-- The three holders after a rebuild, of which these ranks have lost their tables. -/
def rebuiltBut (lost : Nat → Bool) (rank : Nat) : Rebuild UInt64 MeshRole :=
  { threeHolders rank with
    table :=
      if lost rank then (result .ring 3 threeHolders rank).clear
        else result .ring 3 threeHolders rank }

theorem prepared_rebuiltBut (lost : Nat → Bool) :
    Prepared 3 (fun _ => .basic) Tag.rebuild .ring (rebuiltBut lost) := by
  obtain ⟨hspeaks, hsource, hdest, -, -, -⟩ := prepared_threeHolders
  refine ⟨hspeaks, hsource, hdest, fun rank _ => ?_, fun rank _ => ?_, nofun⟩
  · rw [rebuiltBut]
    split <;> rfl
  · rw [rebuiltBut]
    split <;> rfl

theorem ensure_agrees_rebuiltBut :
    (ensuring (.quiet 3) (fun _ => .basic) (rebuiltBut fun _ => false)).Settles
      (Decided (.quiet 3) (fun _ => .basic) (rebuiltBut fun _ => false) false
        (result .ring 3 threeHolders)) ∧
    (ensuring (.quiet 3) (fun _ => .basic) (rebuiltBut (· == 1))).Settles
      (Decided (.quiet 3) (fun _ => .basic) (rebuiltBut (· == 1)) true
        (result .ring 3 (rebuiltBut (· == 1)))) := by
  have hfresh := prepared_rebuiltBut fun _ => false
  have hstale := prepared_rebuiltBut (· == 1)
  obtain ⟨-, hkeeps, -⟩ := ensure_agrees (n := .quiet 3) hfresh (by decide) (by decide)
  obtain ⟨-, hrebuilds, -⟩ := ensure_agrees (n := .quiet 3) hstale (by decide) (by decide)
  exact ⟨hkeeps.keep rfl, hrebuilds.rebuild rfl (by decide)⟩

end Rebuild

end HaloIndex
