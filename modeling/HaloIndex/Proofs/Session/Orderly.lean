import HaloIndex.Proofs.Session.Collective
import HaloIndex.Proofs.Transport.Session
import Mathlib.Data.List.Permutation

namespace HaloIndex

namespace Collective

variable {G A : Type} [Scalar G] [Role A] [LT G] [LT A] [DecidableEq G] [DecidableEq A]
  [DecidableLT G] [DecidableLT A]

def after (size : Nat) (w : Nat → Workspace G A) (c : Collective G A) (rank : Nat) :
    Workspace G A :=
  (c.result size w rank).2

/-- Every call finds what it checks for when its turn comes. -/
def Admissible (size : Nat) (registry : Nat → Registry) :
    List (Collective G A) → (Nat → Workspace G A) → Prop
  | [], _ => True
  | c :: rest, w => c.Ready size registry w ∧ Admissible size registry rest (c.after size w)

def answers (size : Nat) : List (Collective G A) → (Nat → Workspace G A) → List (Nat → Answer G)
  | [], _ => []
  | c :: rest, w => (fun rank => (c.result size w rank).1) :: answers size rest (c.after size w)

def final (size : Nat) (calls : List (Collective G A)) (w : Nat → Workspace G A) :
    Nat → Workspace G A :=
  calls.foldl (after size) w

def call (size : Nat) (registry : Nat → Registry) (c : Collective G A) (rank : Nat) :
    Workspace G A → Program (Answer G × Workspace G A) :=
  c.perform ⟨rank, size, registry rank⟩

/-- All calls of a rank, one after the other and without faults. -/
def session (size : Nat) (registry : Nat → Registry) (calls : List (Collective G A))
    (w : Nat → Workspace G A) (rank : Nat) :
    Program (List (Answer G) × Resident (Workspace G A)) :=
  World.inTurn (calls.map fun c => Act.ofState (c.call size registry rank)) { state := w rank }

variable [LawfulScalar G] [LawfulRole A] [IsStrictTotalOrder G (· < ·)]
  [IsStrictTotalOrder A (· < ·)]

theorem proceeds {t : Traffic} {registry : Nat → Registry} (hclear : ∀ tag, t.Clear tag)
    {calls : List (Collective G A)} {w : Nat → Workspace G A}
    (h : Admissible t.size registry calls w) : ∃ stages,
      Proceeds t (calls.map (call t.size registry)) w stages (answers t.size calls w)
        (final t.size calls w) := by
  induction calls generalizing w with
  | nil => exact ⟨[], .nil w⟩
  | cons c rest ih =>
    obtain ⟨hready, hrest⟩ := h
    obtain ⟨es, hcall⟩ := concludes hready hclear
    obtain ⟨stages, hproceeds⟩ := ih hrest
    exact ⟨es :: stages, .cons hcall hproceeds⟩

/-- In every interleaving of a session the ranks make their calls as if all of them made each
call at once, though any of them may be several calls ahead of the others. -/
theorem session_orderly {size : Nat} {registry : Nat → Registry} {calls : List (Collective G A)}
    {w : Nat → Workspace G A} (h : Admissible size registry calls w) : ∃ stages,
      Proceeds (Network.quiet size).traffic (calls.map (call size registry)) w stages
        (answers size calls w) (final size calls w) ∧
      Pool.Orderly size (session size registry calls w) stages fun rank =>
        ((answers size calls w).map (· rank),
          { state := final size calls w rank
            waits := (eventsIn stages rank).countP Program.isWait }) := by
  have hquiet : (Network.quiet size).traffic = ⟨size, fun _ => []⟩ := Network.traffic_quiet size
  obtain ⟨stages, hproceeds⟩ := proceeds (t := ⟨size, fun _ => []⟩) (fun _ _ _ _ _ => rfl) h
  refine ⟨stages, hquiet ▸ hproceeds, ?_⟩
  apply Pool.orderly_of_concludes
  · rw [hquiet]
    have hsession := hproceeds.inTurn_concludes fun _ => 0
    simp only [Nat.zero_add, List.map_map] at hsession
    exact hsession
  · exact hproceeds.posted_eq_taken fun _ => rfl

def nextTo (rank : Nat) : List Nat := if rank = 1 then [0, 2] else [1]

/-- Three ranks in a row, which have not filled their sets yet. -/
def threeInARow (rank : Nat) : Workspace UInt64 MeshRole where
  tables :=
    [("ring", { settings := { strategy := .ring } }),
      ("row", { neighbours := .ofRanks (nextTo rank) })]

def fillNodes (rank : Nat) (w : Workspace UInt64 MeshRole) : Workspace UInt64 MeshRole :=
  let additions : List (Addition UInt64 MeshRole) := match rank with
    | 0 => [⟨⟨2, .owner⟩, none, true⟩, ⟨⟨1, .owner⟩, none, true⟩]
    | 1 => [⟨⟨1, .ghost⟩, none, true⟩, ⟨⟨2, .ghost⟩, none, true⟩]
    | _ => [⟨⟨2, .overlap⟩, none, true⟩]
  w.putSet "nodes" ((w.set "nodes").fill additions).2

def rebuildNodes (table : String) : Collective UInt64 MeshRole :=
  .rebuild (fun _ => table) (fun _ => "nodes") (fun _ => "nodes") fun _ => false

/-- Calls of every kind. The two rebuilds take different routes under one tag. -/
def mixedCalls : List (Collective UInt64 MeshRole) :=
  [.locally fillNodes, rebuildNodes "ring", rebuildNodes "row",
    .sync (fun _ => "row") (fun _ => "nodes") {} fun _ => freshSlots,
    .reduceMax fun _ w => .ofNat (w.set "nodes").size,
      .reduceAnd fun _ w => (w.table "row").isShared,
    .barrier]

def midway (count : Nat) : Nat → Workspace UInt64 MeshRole :=
  final 3 (mixedCalls.take count) threeInARow

theorem ready_ring : (rebuildNodes "ring").Ready 3 (fun _ => .basic) (midway 1) := by
  refine ⟨Tag.rebuild, .ring, ?_⟩
  constructor
  case speaks => exact fun _ _ => ⟨⟨rfl, rfl, rfl⟩, rfl⟩
  case neighbourly => exact nofun
  all_goals decide_cbv

theorem ready_row : (rebuildNodes "row").Ready 3 (fun _ => .basic) (midway 2) := by
  refine ⟨Tag.rebuild, .neighbours, ?_⟩
  constructor
  case speaks => exact fun _ _ => ⟨⟨rfl, rfl, rfl⟩, rfl⟩
  case neighbourly =>
    have hrow : Neighbourly 3 nextTo := ⟨by decide, by decide, by decide⟩
    refine fun _ => hrow.congr fun rank hrank => ?_
    match rank with
    | 0 | 1 | 2 => decide_cbv
  all_goals decide_cbv

def nodesOfRow : Nat → Sync UInt64 MeshRole :=
  toSync (fun _ => "row") (fun _ => "nodes") (fun _ => freshSlots) (midway 3)

theorem keys_nodesOfRow (rank : Nat) (hrank : rank < 3) :
    (nodesOfRow rank).table.links.keys = nextTo rank := by
  match rank with
  | 0 | 1 | 2 => decide_cbv

theorem checked_nodesOfRow (rank : Nat) (hrank : rank < 3) :
    (nodesOfRow rank).table.checkSyncable (nodesOfRow rank).set = .ok () := by
  match rank with
  | 0 | 1 | 2 => decide_cbv

theorem syncs_nodesOfRow : Syncs 3 nodesOfRow := by
  apply Syncs.of_keys
  · exact checked_nodesOfRow
  · intro rank hrank other hother
    rw [keys_nodesOfRow rank hrank] at hother
    match rank, other with
    | 0, 1 | 1, 0 | 1, 2 | 2, 1 => simp [keys_nodesOfRow, nextTo]

theorem packs_nodesOfRow : Sync.Packs 3 (fun _ => .basic) nodesOfRow := by
  apply Sync.Packs.of_isOk
  intro rank hrank other hother _
  rw [keys_nodesOfRow rank hrank] at hother
  match rank, other with
  | 0, 1 | 1, 0 | 1, 2 | 2, 1 => decide_cbv

theorem admissible_mixedCalls : Admissible 3 (fun _ => .basic) mixedCalls threeInARow :=
  ⟨trivial, ready_ring, ready_row,
    ⟨syncs_nodesOfRow, packs_nodesOfRow, fun _ _ => ⟨rfl, rfl, rfl⟩⟩,
    trivial, trivial, trivial, trivial⟩

theorem session_orderly_mixedCalls : ∃ stages,
    Proceeds (Network.quiet 3).traffic
      (mixedCalls.map (call 3 fun _ => .basic)) threeInARow stages
      (answers 3 mixedCalls threeInARow) (final 3 mixedCalls threeInARow) ∧
    Pool.Orderly 3 (session 3 (fun _ => .basic) mixedCalls threeInARow) stages fun rank =>
      ((answers 3 mixedCalls threeInARow).map (· rank),
        { state := final 3 mixedCalls threeInARow rank
          waits := (eventsIn stages rank).countP Program.isWait }) :=
  session_orderly admissible_mixedCalls

end Collective

end HaloIndex
