import HaloIndex.IndexSet.Resize
import HaloIndex.Proofs.Halo.Plan

namespace HaloIndex

variable {G A : Type}

/-- A link that a plan needs a slot for. -/
structure Want (G A : Type) where
  rank : Nat
  direction : Direction
  link : Link G A

/-- What a plan needs for one rank: what is sent comes before what is received. -/
def Links.wants (f : RoleFilter A) (rank : Nat) (links : Links G A) : List (Want G A) :=
  (links.chosen f .send).map (Want.mk rank .send) ++ (links.chosen f .receive).map
    (Want.mk rank .receive)

def LinkTable.wants (t : LinkTable G A) (f : RoleFilter A) : List (Want G A) :=
  t.links.entries.flatMap fun e => e.2.wants f e.1

namespace HaloPlan

def faultOf : Except Fault Unit → Option Fault
  | .ok () => none
  | .error fault => some fault

theorem faultOf_eq_some_iff {outcome : Except Fault Unit} {fault : Fault} :
    faultOf outcome = some fault ↔ outcome = .error fault := by
  cases outcome with
  | ok => simp [faultOf]
  | error => simp [faultOf]

theorem faultOf_inTurn (parts : List (List PlanStep × Except Fault Unit)) :
    faultOf (inTurn parts).2 = parts.findSome? fun part => faultOf part.2 := by
  induction parts with
  | nil => rfl
  | cons part parts ih =>
    obtain ⟨steps, outcome⟩ := part
    cases outcome with
    | error => rfl
    | ok => exact ih

variable [Scalar G] [LT G] [LT A] [DecidableEq G] [DecidableLT G] [DecidableLT A]
  {table : LinkTable G A} {source dest : IndexSet G A} {f : RoleFilter A}

def refusal (source dest : IndexSet G A) (w : Want G A) : Option Fault :=
  match (setFor source dest w.direction).findKey w.link.localKey with
  | .error fault => some fault
  | .ok none => some (.danglingLink w.rank (Scalar.text w.link.globalId))
  | .ok (some _) => none

theorem faultOf_additions (rank : Nat) (direction : Direction) (links : List (Link G A)) :
    faultOf (additions (setFor source dest direction) rank direction links).2 =
      (links.map (Want.mk rank direction)).findSome? (refusal source dest) := by
  induction links with
  | nil => rfl
  | cons link links ih =>
    rw [List.map_cons, List.findSome?_cons, ← ih, additions, refusal]
    cases (setFor source dest direction).findKey link.localKey with
    | error => rfl
    | ok found => cases found <;> rfl

theorem faultOf_steps :
    faultOf (steps table source dest f).2 = (table.wants f).findSome? (refusal source dest) := by
  rw [steps]
  refine (faultOf_inTurn _).trans ?_
  rw [LinkTable.wants]
  induction table.links.entries with
  | nil => rfl
  | cons e entries ih =>
    have hrank (send receive : List PlanStep × Except Fault Unit) :
        [send, receive].findSome? (fun part => faultOf part.2) =
          (faultOf send.2).or (faultOf receive.2) := by
      rw [List.findSome?_cons, List.findSome?_singleton]
      cases faultOf send.2 <;> rfl
    rw [List.flatMap_cons, List.flatMap_cons, List.findSome?_append, List.findSome?_append,
      ih, Links.wants, List.findSome?_append, ← faultOf_additions e.1 .send,
        ← faultOf_additions e.1 .receive, hrank]
    rfl

/-- The fault of the first link without a slot is reported, in the order of the table. -/
theorem steps_refused {fault : Fault} :
    (steps table source dest f).2 = .error fault ↔
      ∃ before w after, table.wants f = before ++ w :: after ∧
        refusal source dest w = some fault ∧
        ∀ v ∈ before, refusal source dest v = none := by
  rw [← faultOf_eq_some_iff, faultOf_steps, List.findSome?_eq_some_iff]

/-- There are two ways for a plan not to be made. A stale table is refused, and the plan stays as
it was. For a synced one the first link without a slot is what is reported, and the plan is left
empty whatever it held before. -/
theorem build_refused {p q : HaloPlan} {fault : Fault} :
    p.build table source dest f = (.error fault, q) ↔
      table.checkSynced source dest = .error fault ∧ q = p ∨
      table.checkSynced source dest = .ok () ∧ q = .empty ∧
        ∃ before w after, table.wants f = before ++ w :: after ∧
          refusal source dest w = some fault ∧
          ∀ v ∈ before, refusal source dest v = none := by
  rw [← steps_refused, build, stepsOfSynced]
  cases hsynced : table.checkSynced source dest with
  | error stale => simp [bind, Except.bind, eq_comm]
  | ok =>
    simp only [bind, Except.bind, pure, Except.pure]
    cases hsteps : steps table source dest f with
    | mk listed outcome =>
      cases outcome with
      | error first => simp [eq_comm, and_comm]
      | ok => simp

def selfLinked : LinkTable UInt64 MeshRole :=
  LinkTable.align
    { links := NatMap.empty.insert 0 (.shared [⟨1, .owner, .overlap⟩, ⟨1, .overlap, .owner⟩]) }
    {} {}

def twoRoles : IndexSet UInt64 MeshRole :=
  { holdings := [⟨1, .valid 0 .owner true⟩, ⟨1, .valid 1 .overlap true⟩] }

def ownersToOverlap : RoleFilter MeshRole where
  source a := decide (a = .owner)
  dest a := decide (a = .overlap)

/-- Opening a set for changes does not make the table stale, so the plan is given up before the
fault is noticed. -/
theorem build_resizing_loses : ∃ (opened : IndexSet UInt64 MeshRole) (plan : HaloPlan),
    twoRoles.beginResize = (.ok (), opened) ∧
    HaloPlan.empty.build selfLinked twoRoles twoRoles ownersToOverlap = (.ok (), plan) ∧
    plan.slots 0 .send = [0] ∧ plan.slots 0 .receive = [1] ∧
    plan.build selfLinked opened opened ownersToOverlap =
      (.error (.wrongPhase "find_pair" .ground .resize), .empty) := by
  refine ⟨{ twoRoles with phase := .resize }, ⟨NatMap.empty.insert 0 ⟨[0], [1]⟩⟩, ?_⟩
  decide +kernel

end HaloPlan

end HaloIndex
