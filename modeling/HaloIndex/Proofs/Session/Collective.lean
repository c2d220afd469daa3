import HaloIndex.Proofs.Rebuild.Table
import HaloIndex.Proofs.Sync.Table
import HaloIndex.Proofs.Transport.Reduction
import HaloIndex.Workspace

namespace HaloIndex

variable {G A : Type}

inductive Answer (G : Type) where
  | ended (outcome : Except Fault Unit)
  | synced (outcome : Except Fault Unit) (asked : List G)
  | number (outcome : Except Fault UInt64)
  | verdict (outcome : Except Fault Bool)

/-- A call of all ranks, with what each of them brings to it; or a change that each of them makes
to what it has. -/
inductive Collective (G A : Type) where
  | locally (change : Nat → Workspace G A → Workspace G A)
  | rebuild (table source dest : Nat → String) (ignorePublic : Nat → Bool)
  | sync (table set : Nat → String) (settings : SyncSettings) (numbering : Nat → Numbering G)
  | reduceMax (value : Nat → Workspace G A → UInt64)
  | reduceAnd (value : Nat → Workspace G A → Bool)
  | barrier

namespace Collective

def toRebuild (table source dest : Nat → String) (ignorePublic : Nat → Bool)
    (w : Nat → Workspace G A) (rank : Nat) : Rebuild G A where
  table := (w rank).table (table rank)
  ends := (w rank).endpoints (source rank) (dest rank)
  ignorePublic := ignorePublic rank

def toSync (table set : Nat → String) (numbering : Nat → Numbering G) (w : Nat → Workspace G A)
    (rank : Nat) : Sync G A where
  table := (w rank).table (table rank)
  set := (w rank).set (set rank)
  numbering := numbering rank

variable [Scalar G] [Role A] [LT G] [LT A] [DecidableEq G] [DecidableEq A] [DecidableLT G]
  [DecidableLT A]

def perform (c : Collective G A) (s : Station) (w : Workspace G A) :
    Program (Answer G × Workspace G A) := do
  match c with
  | locally change => return (.ended (.ok ()), change s.rank w)
  | rebuild table source dest ignorePublic =>
    let (outcome, t) ← (w.table (table s.rank)).rebuild s
        (w.endpoints (source s.rank) (dest s.rank))
      (ignorePublic s.rank)
    return (.ended outcome, w.putTable (table s.rank) t)
  | sync table set settings numbering =>
    let r ← (w.table (table s.rank)).sync s (w.set (set s.rank)) settings (numbering s.rank)
    return (.synced r.outcome r.asked,
      (w.putSet (set s.rank) r.set).putTable (table s.rank) r.table)
  | reduceMax value => return (.number (← (s.reduceMax (value s.rank w)).run), w)
  | reduceAnd value => return (.verdict (← (s.reduceAnd (value s.rank w)).run), w)
  | barrier => return (.ended (← s.barrier.run), w)

/-- What each rank has passes the checks of the call. -/
def Ready (size : Nat) (registry : Nat → Registry) (w : Nat → Workspace G A) :
    Collective G A → Prop
  | rebuild table source dest ignorePublic => ∃ tag route,
    Rebuilds size registry tag route (toRebuild table source dest ignorePublic w)
  | sync table set _ numbering =>
    Syncs size (toSync table set numbering w) ∧
      Sync.Packs size registry (toSync table set numbering w) ∧
      ∀ rank < size, (registry rank).Speaks G
  | _ => True

/-- How the call ends on a rank, given what all ranks have when they make it. -/
def result (size : Nat) (w : Nat → Workspace G A) (rank : Nat) :
    Collective G A → Answer G × Workspace G A
  | locally change => (.ended (.ok ()), change rank (w rank))
  | rebuild table source dest ignorePublic =>
    let (outcome, t) := Rebuild.ending size (toRebuild table source dest ignorePublic w) rank
    (.ended outcome, (w rank).putTable (table rank) t)
  | sync table set _ numbering =>
    let r := Sync.ending (toSync table set numbering w) rank
    (.synced r.outcome r.asked, ((w rank).putSet (set rank) r.set).putTable (table rank) r.table)
  | reduceMax value => (.number (.ok (Station.total size max fun k => value k (w k))), w rank)
  | reduceAnd value => (.verdict (.ok ((List.range size).all fun k => value k (w k))), w rank)
  | barrier => (.ended (.ok ()), w rank)

variable [LawfulScalar G] [LawfulRole A] [IsStrictTotalOrder G (· < ·)]
  [IsStrictTotalOrder A (· < ·)] {t : Traffic} {registry : Nat → Registry}
  {w : Nat → Workspace G A}

/-- A call that all ranks are ready for is made by all of them together. -/
theorem concludes {c : Collective G A} (h : c.Ready t.size registry w)
    (hclear : ∀ tag, t.Clear tag) :
    ∃ es, Concludes t (fun rank => c.perform ⟨rank, t.size, registry rank⟩ (w rank)) es
      fun rank => c.result t.size w rank := by
  cases c with
  | locally change => exact ⟨_, .of_done fun _ _ => rfl⟩
  | rebuild table source dest ignorePublic =>
    obtain ⟨tag, route, hready⟩ := h
    obtain ⟨es, hrebuild⟩ := Rebuild.rebuild_concludes hready (hclear tag)
    have hput := hrebuild.map fun rank r =>
      ((.ended r.1 : Answer G), (w rank).putTable (table rank) r.2)
    refine ⟨es, hput.congr (fun _ _ => rfl) fun rank hrank => ?_⟩
    rw [result, Rebuild.ending_eq hready hrank]
  | sync table set settings numbering =>
    obtain ⟨hsyncs, hpack, hspeaks⟩ := h
    obtain ⟨es, hsync⟩ := Sync.sync_concludes settings hsyncs (hclear _) hspeaks hpack
    exact ⟨es, hsync.map fun rank r => (Answer.synced r.outcome r.asked,
      ((w rank).putSet (set rank) r.set).putTable (table rank) r.table)⟩
  | reduceMax value =>
    obtain ⟨es, hreduce⟩ :=
      Station.reduceMax_concludes registry (hclear _) fun k => value k (w k)
    exact ⟨es, hreduce.map fun rank r => (Answer.number r, w rank)⟩
  | reduceAnd value =>
    obtain ⟨es, hreduce⟩ :=
      Station.reduceAnd_concludes registry (hclear _) fun k => value k (w k)
    exact ⟨es, hreduce.map fun rank r => (Answer.verdict r, w rank)⟩
  | barrier =>
    obtain ⟨es, hbarrier⟩ := Station.barrier_concludes registry (hclear _)
    exact ⟨es, hbarrier.map fun rank r => (Answer.ended r, w rank)⟩

end Collective

end HaloIndex
