import HaloIndex.Halo.Builder
import HaloIndex.Proofs.IndexSet.Keys
import HaloIndex.Proofs.Link.Table

namespace HaloIndex

variable {G A : Type}

theorem NatMap.flatMap_entries {β γ : Type} (m : NatMap β) (k : Nat) (f : Nat × β → List γ)
    (h : ∀ e, e.1 ≠ k → f e = []) :
    m.entries.flatMap f = ((m.get? k).map fun v => f (k, v)).getD [] := by
  cases hget : m.get? k with
  | none =>
    apply List.flatMap_eq_nil_iff.mpr
    intro e he
    apply h
    rintro rfl
    rw [NatMap.get?_eq_some_iff.mpr (show (e.1, e.2) ∈ m.entries from he)] at hget
    cases hget
  | some value =>
    obtain ⟨low, high, hsplit⟩ := List.append_of_mem (NatMap.get?_eq_some_iff.mp hget)
    have hne : ∀ e ∈ low ++ high, e.1 ≠ k := by
      have hnodup := m.nodup_keys
      rw [NatMap.keys, hsplit, List.map_append, List.map_cons, List.nodup_middle,
        List.nodup_cons, ← List.map_append] at hnodup
      intro e he hk
      exact hnodup.1 (List.mem_map.mpr ⟨e, he, hk⟩)
    have hlow : low.flatMap f = [] :=
      List.flatMap_eq_nil_iff.mpr fun e he => h e (hne e (List.mem_append_left _ he))
    have hhigh : high.flatMap f = [] :=
      List.flatMap_eq_nil_iff.mpr fun e he => h e (hne e (List.mem_append_right _ he))
    rw [hsplit, List.flatMap_append, List.flatMap_cons, hlow, hhigh, List.append_nil]
    rfl

def PlanStep.slotFor (rank : Nat) (direction : Direction) : PlanStep → Option Nat
  | .reserve .. => none
  | .add k d slot => if k = rank ∧ d = direction then some slot else none

def SlotLists.toward (l : SlotLists) : Direction → List Nat
  | .send => l.send
  | .receive => l.receive

/-- The links that a plan uses for one direction. -/
def Links.chosen (f : RoleFilter A) (direction : Direction) (links : Links G A) :
    List (Link G A) :=
  match direction with
  | .send => links.send.filter f.sends
  | .receive => links.receive.filter f.receives

def LinkTable.chosen (t : LinkTable G A) (f : RoleFilter A) (rank : Nat)
    (direction : Direction) :
    List (Link G A) :=
  ((t.linksTo rank).map (Links.chosen f direction)).getD []

theorem LinkTable.chosen_send (t : LinkTable G A) (f : RoleFilter A) (rank : Nat) :
    t.chosen f rank .send = (t.sendTo rank).filter f.sends := by
  rw [chosen, sendTo]
  cases t.linksTo rank <;> rfl

theorem LinkTable.chosen_receive (t : LinkTable G A) (f : RoleFilter A) (rank : Nat) :
    t.chosen f rank .receive = (t.receiveFrom rank).filter f.receives := by
  rw [chosen, receiveFrom]
  cases t.linksTo rank <;> rfl

namespace HaloPlan

def slots (p : HaloPlan) (rank : Nat) (direction : Direction) : List Nat :=
  ((p.lists.get? rank).getD {}).toward direction

theorem slots_apply (p : HaloPlan) (rank : Nat) (direction : Direction) (step : PlanStep) :
    (p.apply step).slots rank direction =
      p.slots rank direction ++ (step.slotFor rank direction).toList := by
  cases step with
  | reserve k d count =>
    rw [slots, apply, NatMap.get?_modify, PlanStep.slotFor, Option.toList_none, List.append_nil]
    split
    next h =>
      subst h
      rfl
    next => rfl
  | add k d slot =>
    rw [slots, apply, NatMap.get?_modify, PlanStep.slotFor]
    by_cases hk : rank = k
    · subst hk
      rw [if_pos rfl, Option.getD_some, slots]
      generalize (p.lists.get? rank).getD {} = lists
      cases d <;> cases direction <;> simp [SlotLists.append, SlotLists.toward]
    · rw [if_neg hk, if_neg fun h => hk h.1.symm, Option.toList_none, List.append_nil, slots]

theorem slots_applyAll (p : HaloPlan) (rank : Nat) (direction : Direction)
    (steps : List PlanStep) :
    (p.applyAll steps).slots rank direction =
      p.slots rank direction ++ steps.filterMap (PlanStep.slotFor rank direction) := by
  induction steps generalizing p with
  | nil => exact (List.append_nil _).symm
  | cons step steps ih =>
    have hrest := ih (p.apply step)
    rw [slots_apply, List.append_assoc] at hrest
    refine hrest.trans (congrArg _ ?_)
    rw [List.filterMap_cons]
    cases step.slotFor rank direction <;> rfl

theorem slots_strip (p : HaloPlan) (rank : Nat) (direction : Direction) :
    p.strip.slots rank direction = p.slots rank direction := by
  rw [slots, slots, strip, NatMap.get?_filter]
  cases p.lists.get? rank with
  | none => rfl
  | some lists =>
    rw [Option.filter_some]
    split
    next => rfl
    next h =>
      have hempty : lists.isEmpty = true := by simpa using h
      rw [SlotLists.isEmpty, Bool.and_eq_true, List.isEmpty_iff, List.isEmpty_iff] at hempty
      cases direction with
      | send => exact hempty.1.symm
      | receive => exact hempty.2.symm

theorem inTurn_ok {parts : List (List PlanStep)} :
    inTurn (parts.map fun steps => (steps, .ok ())) = (parts.flatten, .ok ()) := by
  induction parts with
  | nil => rfl
  | cons steps parts ih => rw [List.map_cons, inTurn, ih, List.flatten_cons]

end HaloPlan

namespace IndexSet

variable [DecidableEq G] [LT G] [DecidableLT G] [LT A] [DecidableLT A]

def slotOf? (s : IndexSet G A) (k : Key G A) : Option Nat := (s.holdingOf k).map Holding.slot

theorem isSome_slotOf?_iff [IsStrictTotalOrder G (· < ·)] [IsStrictTotalOrder A (· < ·)]
    {s : IndexSet G A} (hs : Ascending s.keys) {k : Key G A} :
    (s.slotOf? k).isSome = true ↔ k ∈ s.keys := by
  rw [slotOf?, Option.isSome_map, Option.isSome_iff_exists, mem_keys]
  simp only [holdingOf_eq_some_iff hs]

def Resolves (s : IndexSet G A) (links : List (Link G A)) : Prop :=
  ∀ l ∈ links, (s.slotOf? l.localKey).isSome

def slotsOf (s : IndexSet G A) (links : List (Link G A)) : List Nat :=
  links.filterMap fun l => s.slotOf? l.localKey

theorem Resolves.map_slotsOf {s : IndexSet G A} {links : List (Link G A)}
    (h : s.Resolves links) :
    (s.slotsOf links).map some = links.map fun l => s.slotOf? l.localKey := by
  induction links with
  | nil => rfl
  | cons l links ih =>
    obtain ⟨slot, hslot⟩ := Option.isSome_iff_exists.mp (h l (List.mem_cons_self ..))
    have hrest := ih fun m hm => h m (List.mem_cons_of_mem _ hm)
    rw [slotsOf, List.filterMap_cons, hslot, List.map_cons, List.map_cons, hslot]
    exact congrArg _ hrest

theorem Resolves.filter {s : IndexSet G A} {links : List (Link G A)} (h : s.Resolves links)
    (p : Link G A → Bool) : s.Resolves (links.filter p) :=
  fun l hl => h l (List.mem_filter.mp hl).1

end IndexSet

namespace HaloPlan

theorem slotFor_map_add (rank k : Nat) (direction d : Direction) (slots : List Nat) :
    (slots.map (.add k d)).filterMap (PlanStep.slotFor rank direction) =
      if k = rank ∧ d = direction then slots else [] := by
  rw [List.filterMap_map]
  split
  next h => simp [PlanStep.slotFor, h]
  next h => simp [Function.comp_def, PlanStep.slotFor, h]

/-- The set that the slots for a direction are taken from. -/
def setFor (source dest : IndexSet G A) : Direction → IndexSet G A
  | .send => source
  | .receive => dest

variable [LT G] [LT A] [DecidableEq G] [DecidableLT G] [DecidableLT A]

/-- Every link of a table names a key that is held. -/
structure Resolved (table : LinkTable G A) (source dest : IndexSet G A) : Prop where
  send : ∀ e ∈ table.links.entries, source.Resolves e.2.send
  receive : ∀ e ∈ table.links.entries, dest.Resolves e.2.receive

theorem Resolved.chosen {table : LinkTable G A} {source dest : IndexSet G A}
    (h : Resolved table source dest) (f : RoleFilter A) (rank : Nat) (direction : Direction) :
    (setFor source dest direction).Resolves (table.chosen f rank direction) := by
  intro l hl
  cases hget : table.links.get? rank with
  | none =>
    rw [LinkTable.chosen, LinkTable.linksTo, hget] at hl
    cases hl
  | some links =>
    have hentry := NatMap.get?_eq_some_iff.mp hget
    rw [LinkTable.chosen, LinkTable.linksTo, hget] at hl
    cases direction with
    | send => exact (h.send _ hentry).filter _ l hl
    | receive => exact (h.receive _ hentry).filter _ l hl

/-- The steps that fill in the slots for one rank, direction by direction. -/
def fillings (source dest : IndexSet G A) (f : RoleFilter A) (e : Nat × Links G A) :
    List (List PlanStep) :=
  [(source.slotsOf (e.2.chosen f .send)).map (.add e.1 .send),
    (dest.slotsOf (e.2.chosen f .receive)).map (.add e.1 .receive)]

theorem slotFor_fillings (source dest : IndexSet G A) (f : RoleFilter A) (rank : Nat)
    (direction : Direction) (e : Nat × Links G A) :
    (fillings source dest f e).flatten.filterMap (PlanStep.slotFor rank direction) =
      if e.1 = rank then (setFor source dest direction).slotsOf
        (e.2.chosen f direction) else [] := by
  rw [fillings, List.flatten_cons, List.flatten_cons, List.flatten_nil, List.append_nil,
    List.filterMap_append, slotFor_map_add, slotFor_map_add]
  cases direction with
  | send => simp [setFor]
  | receive => simp [setFor]

theorem slotFor_flatMap_fillings (table : LinkTable G A) (source dest : IndexSet G A)
    (f : RoleFilter A) (rank : Nat) (direction : Direction) :
    (table.links.entries.flatMap (fillings source dest f)).flatten.filterMap
        (PlanStep.slotFor rank direction) =
      (setFor source dest direction).slotsOf (table.chosen f rank direction) := by
  rw [← List.flatMap_id, List.flatMap_assoc, List.filterMap_flatMap]
  simp only [List.flatMap_id]
  have hone := table.links.flatMap_entries rank
    (fun e => (fillings source dest f e).flatten.filterMap (PlanStep.slotFor rank direction))
    fun e he => by rw [slotFor_fillings, if_neg he]
  rw [hone, LinkTable.chosen, LinkTable.linksTo]
  cases table.links.get? rank with
  | none => rfl
  | some links =>
    rw [Option.map_some, Option.getD_some, slotFor_fillings, if_pos rfl]
    rfl

variable [Scalar G]

theorem additions_eq {set : IndexSet G A} (hphase : set.phase = .ground) (rank : Nat)
    (direction : Direction) {links : List (Link G A)} (h : set.Resolves links) :
    additions set rank direction links =
      ((set.slotsOf links).map (.add rank direction), .ok ()) := by
  induction links with
  | nil => rfl
  | cons l links ih =>
    obtain ⟨slot, hslot⟩ := Option.isSome_iff_exists.mp (h l (List.mem_cons_self ..))
    have hrest := ih fun m hm => h m (List.mem_cons_of_mem _ hm)
    obtain ⟨holding, hholding, rfl⟩ := Option.map_eq_some_iff.mp hslot
    have hfind : set.findKey l.localKey = .ok (some holding) := by
      rw [IndexSet.findKey, IndexSet.require, if_pos hphase, hholding]
      rfl
    rw [additions, hfind]
    simp only [hrest, IndexSet.slotsOf, List.filterMap_cons, hslot, List.map_cons]

theorem steps_eq {table : LinkTable G A} {source dest : IndexSet G A}
    (hsource : source.phase = .ground) (hdest : dest.phase = .ground)
    (h : Resolved table source dest) (f : RoleFilter A) :
    steps table source dest f = (table.links.entries.flatMap (fun e => reservations f e.1 e.2) ++
      (table.links.entries.flatMap (fillings source dest f)).flatten, .ok ()) := by
  have hparts : (table.links.entries.flatMap fun e =>
      [additions source e.1 .send (e.2.send.filter f.sends),
        additions dest e.1 .receive (e.2.receive.filter f.receives)]) =
      (table.links.entries.flatMap (fillings source dest f)).map fun steps =>
        (steps, .ok ()) := by
    rw [List.map_flatMap]
    apply List.flatMap_congr
    intro e he
    rw [additions_eq hsource _ _ ((h.send e he).filter _),
      additions_eq hdest _ _ ((h.receive e he).filter _)]
    rfl
  rw [steps]
  simp only [hparts, inTurn_ok]

/-- If every link has a slot, a plan lists the slots of the chosen links, in their order. -/
theorem build_slots {table : LinkTable G A} {source dest : IndexSet G A}
    (hsource : source.phase = .ground) (hdest : dest.phase = .ground)
    (h : Resolved table source dest) (hsynced : table.isSynced source dest = true)
    (f : RoleFilter A) :
    ∃ plan : HaloPlan, (∀ old : HaloPlan, old.build table source dest f = (.ok (), plan)) ∧
      ∀ rank direction, plan.slots rank direction =
        (setFor source dest direction).slotsOf (table.chosen f rank direction) := by
  have hsteps : stepsOfSynced table source dest f = .ok (steps table source dest f) := by
    rw [stepsOfSynced, LinkTable.checkSynced, if_pos hsynced]
    rfl
  rw [steps_eq hsource hdest h f] at hsteps
  refine ⟨_, fun old => by rw [build, hsteps], fun rank direction => ?_⟩
  have hroom : (table.links.entries.flatMap fun e => reservations f e.1 e.2).filterMap
      (PlanStep.slotFor rank direction) = [] := by
    rw [List.filterMap_flatMap]
    exact List.flatMap_eq_nil_iff.mpr fun _ _ => rfl
  rw [slots_strip, slots_applyAll, List.filterMap_append, hroom, List.nil_append,
    slotFor_flatMap_fillings]
  cases direction <;> rfl

end HaloPlan

end HaloIndex
