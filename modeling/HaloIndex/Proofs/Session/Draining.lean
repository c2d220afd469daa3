import HaloIndex.Proofs.Session.Refusal
import HaloIndex.Proofs.Sync.Draining

namespace HaloIndex

variable {G A : Type} [Scalar G] [Role A] [LT G] [LT A] [DecidableEq G] [DecidableEq A]
  [DecidableLT G] [DecidableLT A] {s : Station} {tag : Tag} {es : List Event}

namespace Publication

def Taken (registry : Registry) (tag : Tag) (own : Publication G A) (peer : Nat)
    (es : List Event) (outcome : Except Fault Unit) : Prop :=
  ∃ found, own.TakenFrom registry tag peer es found ∧ outcome = found.map fun _ => ()

theorem quiet_taken (registry : Registry) (tag : Tag) (own : Publication G A) :
    Exchange.Quiet (Taken registry tag own) := by
  rintro peer es _ ⟨found, htaken, -⟩
  cases htaken <;> exact ⟨rfl, rfl⟩

theorem swap_drains {own : Publication G A} {neighbours : List Nat}
    (hpeers : neighbours.Pairwise (· < ·)) {message : List UInt8} {links : NatMap (Links G A)}
    {outcome : Except Fault (NatMap (Links G A))}
    (h : (swap s tag own neighbours message links).run.Path es (.done outcome)) :
    ∃ log, Exchange.Drains tag (fun _ => .ok message) (Taken s.registry tag own) neighbours es
      (outcome.map fun _ => ()) log := by
  obtain ⟨result, final, hround, rfl⟩ := round_of_swap h
  have htake : ∀ peer links es r, True → (hearFrom s tag own peer links).Path es (.done r) →
      Taken s.registry tag own peer es r.1 ∧ True := by
    intro peer links es r _ hpath
    obtain ⟨found, htaken, houtcome, -⟩ := path_of_hearFrom hpath
    exact ⟨⟨found, takenFrom_of_path htaken, houtcome⟩, trivial⟩
  obtain ⟨-, log, hlog⟩ :=
    Exchange.round_drains (quiet_taken s.registry tag own) htake hpeers trivial hround
  refine ⟨log, ?_⟩
  cases result <;> exact hlog

end Publication

namespace Rebuild

/-- What a rank does before it says anything: it checks what it was given, and packs its message
unless there is nobody to exchange it with. -/
def prepare (b : Rebuild G A) (s : Station) : Except Fault (Option (List UInt8)) := do
  let _ ← b.checked s
  if s.size = 1 && !b.wantsSelf then return none
  let message ← b.published.encode s.registry
  if b.wantsSelf then
    let _ ← b.published.linksFrom s.registry message b.table.settings.includeSelf
  return some message

/-- How a rebuild between neighbours goes: it ends before anything is said, or it is a round with
the declared neighbours. -/
inductive Goes (b : Rebuild G A) (s : Station) (es : List Event)
    (outcome : Except Fault Unit) : Prop where
  | refused {f : Fault} (h : b.prepare s = .error f) (hes : es = []) (hout : outcome = .error f)
  | alone (h : b.prepare s = .ok none) (hes : es = []) (hout : outcome = .ok ())
  | exchanged {message : List UInt8} {log : List Exchange.Attempt}
      (h : b.prepare s = .ok (some message))
      (hlog : Exchange.Drains b.table.settings.rebuildTag (fun _ => .ok message)
        (Publication.Taken s.registry b.table.settings.rebuildTag b.published)
        (b.neighbours s.rank).keys es
        outcome log)

theorem goes_of_collect {b : Rebuild G A} (hchecked : b.checked s = .ok .neighbours)
    {outcome : Except Fault (NatMap (Links G A))}
    (h : (LinkTable.collect s b.ends b.ignorePublic b.table.settings
      (b.neighbours s.rank) .neighbours).run.Path es
      (.done outcome)) : b.Goes s es (outcome.map fun _ => ()) := by
  have hprepare : b.prepare s = do
      if s.size = 1 && !b.wantsSelf then return none
      let message ← b.published.encode s.registry
      if b.wantsSelf then
        let _ ← b.published.linksFrom s.registry message b.table.settings.includeSelf
      return some message := by
    rw [prepare, hchecked]
    rfl
  unfold LinkTable.collect at h
  by_cases hquits : (decide (s.size = 1) && !b.wantsSelf) = true
  · rw [if_pos hquits] at hprepare
    rw [wantsSelf] at hquits
    simp only [if_pos hquits] at h
    obtain ⟨rfl, he⟩ := h.of_done
    cases he
    exact .alone hprepare rfl rfl
  rw [if_neg hquits] at hprepare
  rw [wantsSelf] at hquits
  simp only [if_neg hquits] at h
  obtain ⟨f, rfl, hencode⟩ | ⟨message, fs, gs, rfl, hencode, hmore⟩ := h.cases_talk_bind
  · obtain ⟨rfl, he⟩ := hencode.of_done
    refine .refused (f := f) ?_ rfl rfl
    rw [hprepare, show b.published.encode s.registry = _ from (Program.done.inj he).symm]
    rfl
  obtain ⟨rfl, hpack⟩ := hencode.of_ofExcept
  rw [show b.published.encode s.registry = _ from hpack] at hprepare
  by_cases hwants : b.wantsSelf = true
  · simp only [if_pos hwants] at hprepare
    rw [wantsSelf] at hwants
    simp only [if_pos hwants] at hmore
    obtain ⟨f, rfl, hown⟩ | ⟨loopBack, ts, us, rfl, hown, hexchange⟩ := hmore.cases_talk_bind
    · obtain ⟨rfl, he⟩ := hown.of_done
      have hread : b.published.linksFrom s.registry message b.table.settings.includeSelf =
          .error f :=
        (Program.done.inj he).symm
      exact .refused (hprepare.trans
        (congrArg (· >>= fun _ => pure (some message)) hread)) rfl rfl
    · obtain ⟨rfl, hread⟩ := hown.of_ofExcept
      have hread : b.published.linksFrom s.registry message b.table.settings.includeSelf =
          .ok loopBack := hread
      obtain ⟨log, hlog⟩ := Publication.swap_drains (b.neighbours s.rank).pairwise_keys hexchange
      exact .exchanged (hprepare.trans
        (congrArg (· >>= fun _ => pure (some message)) hread)) hlog
  · simp only [if_neg hwants] at hprepare
    rw [wantsSelf] at hwants
    simp only [if_neg hwants] at hmore
    obtain ⟨log, hlog⟩ := Publication.swap_drains (b.neighbours s.rank).pairwise_keys hmore
    exact .exchanged hprepare hlog

theorem goes_of_path {b : Rebuild G A} (hring : b.checked s ≠ .ok .ring)
    {r : Except Fault Unit × LinkTable G A} (h : (b.program s).Path es (.done r)) :
    b.Goes s es r.1 := by
  cases hchecked : b.checked s with
  | error f =>
    have hprepare : b.prepare s = .error f := by
      rw [prepare, hchecked]
      rfl
    rw [program_of_error hchecked] at h
    obtain ⟨rfl, he⟩ := h.of_done
    cases he
    exact .refused hprepare rfl rfl
  | ok route =>
    cases route with
    | ring => exact absurd hchecked hring
    | neighbours =>
      rw [program_of_ok hchecked] at h
      obtain ⟨outcome, fs, gs, rfl, hcollect, hlast⟩ := h.of_bind
      obtain ⟨rfl, he⟩ := hlast.of_done
      cases he
      rw [List.append_nil]
      have hgoes := goes_of_collect hchecked hcollect
      cases outcome <;> exact hgoes

end Rebuild

/-- Whatever the transport answers and whatever comes in, each message that a rank could post is
waited for once, nothing is sent or taken after a failure, and the first failure is what a
rebuild between neighbours or a sync ends with. -/
theorem neighbour_exchanges_drain [IsStrictTotalOrder G (· < ·)] [IsStrictTotalOrder A (· < ·)] :
    (∀ (b : Rebuild G A) (s : Station) (es : List Event) (r : Except Fault Unit × LinkTable G A),
      b.checked s ≠ .ok .ring → (b.program s).Path es (.done r) → b.Goes s es r.1) ∧
    ∀ (b : Sync G A) (s : Station) (settings : SyncSettings) (es : List Event)
    (r : SyncResult G A),
      (b.program s settings).Path es (.done r) → b.Goes s settings es r.outcome :=
  ⟨fun _ _ _ _ hring h => Rebuild.goes_of_path hring h, fun _ _ _ _ _ h => Sync.goes_of_path h⟩

def Rebuild.between : Rebuild UInt64 MeshRole where
  table := .withSettings {} (.ofRanks [0, 2])
  ends := .one .empty
  ignorePublic := false

/-- Some ranks cannot be sent to, what comes in announces a role that there is not, and every
wait fails. -/
def failing (lost : Nat → Bool) : (r : Request) → r.Answer
  | .post peer _ _ => if lost peer then .error (.communication peer "not sent") else .ok ⟨peer⟩
  | .wait handle => .error (.communication handle.peer "not delivered")
  | .probe _ _ => .ok ⟨0, 3⟩
  | .receive _ _ => .ok [1, 0, 0, 0, 5, 0, 0, 0, 0, 0, 0, 0, 9]
  | .queued => .ok 0

theorem neighbour_exchanges_drain_failing :
    (∃ es r, (Rebuild.between.program ⟨1, 3, .basic⟩).Path es (.done r) ∧
      r.1 = .error (.communication 2 "not sent") ∧ Rebuild.between.Goes ⟨1, 3, .basic⟩ es r.1) ∧
    ∃ es r, ((Sync.thirdHolder 1).program ⟨1, 3, .basic⟩ {}).Path es (.done r) ∧
      r.outcome = .error (.unknownRole 9) ∧
      (Sync.thirdHolder 1).Goes ⟨1, 3, .basic⟩ {} es r.outcome := by
  constructor
  · obtain ⟨es, hpath, -⟩ :=
      Program.path_under (failing (· == 2)) (Rebuild.between.program ⟨1, 3, .basic⟩)
    exact ⟨es, _, hpath, by decide +kernel,
      neighbour_exchanges_drain.1 Rebuild.between ⟨1, 3, .basic⟩ es _
      (by decide +kernel) hpath⟩
  · obtain ⟨es, hpath, -⟩ := Program.path_under (failing fun _ => false)
      ((Sync.thirdHolder 1).program ⟨1, 3, .basic⟩ {})
    exact ⟨es, _, hpath, by decide +kernel,
      neighbour_exchanges_drain.2 (Sync.thirdHolder 1) ⟨1, 3, .basic⟩ {} es _ hpath⟩

end HaloIndex
