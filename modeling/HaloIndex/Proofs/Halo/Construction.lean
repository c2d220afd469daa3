import HaloIndex.Proofs.Halo.Refusal

namespace HaloIndex

variable {G A : Type}

namespace IndexSet

def HasSlot (s : IndexSet G A) (k : Key G A) (slot : Nat) : Prop :=
  ∃ h ∈ s.holdings, h.key = k ∧ h.slot = slot

variable [LT G] [LT A]

theorem AtRest.setFor {source dest : IndexSet G A} (hsource : source.AtRest)
    (hdest : dest.AtRest) (direction : Direction) :
    (HaloPlan.setFor source dest direction).AtRest := by
  cases direction with
  | send => exact hsource
  | receive => exact hdest

variable [DecidableEq G] [DecidableLT G] [DecidableLT A] [IsStrictTotalOrder G (· < ·)]
  [IsStrictTotalOrder A (· < ·)]

theorem slotOf?_eq_some_iff {s : IndexSet G A} (hs : Ascending s.keys) {k : Key G A}
    {slot : Nat} :
    s.slotOf? k = some slot ↔ s.HasSlot k slot := by
  rw [slotOf?, Option.map_eq_some_iff]
  simp only [holdingOf_eq_some_iff hs, HasSlot, and_assoc]

end IndexSet

namespace Want

def isFor (rank : Nat) (direction : Direction) (w : Want G A) : Bool :=
  decide (w.rank = rank ∧ w.direction = direction)

def Resolves (source dest : IndexSet G A) (w : Want G A) : Prop :=
  w.link.localKey ∈ (HaloPlan.setFor source dest w.direction).keys

instance [DecidableEq G] [DecidableEq A] (source dest : IndexSet G A) (w : Want G A) :
    Decidable (w.Resolves source dest) :=
  inferInstanceAs (Decidable (_ ∈ _))

/-- A step that adds the slot of a wanted link. -/
inductive FilledBy (source dest : IndexSet G A) (w : Want G A) : PlanStep → Prop where
  | add {slot : Nat}
    (h : (HaloPlan.setFor source dest w.direction).HasSlot w.link.localKey slot) :
    FilledBy source dest w (.add w.rank w.direction slot)

theorem FilledBy.slotFor {source dest : IndexSet G A} {w : Want G A} {step : PlanStep}
    (h : w.FilledBy source dest step) (rank : Nat) (direction : Direction) :
    (w.isFor rank direction = false ∧ step.slotFor rank direction = none) ∨
      w.isFor rank direction = true ∧ ∃ slot, step.slotFor rank direction = some slot ∧
        (HaloPlan.setFor source dest direction).HasSlot w.link.localKey slot := by
  obtain ⟨hslot⟩ := h
  rw [isFor, PlanStep.slotFor]
  by_cases hfor : w.rank = rank ∧ w.direction = direction
  · rw [if_pos hfor, decide_eq_true hfor]
    exact .inr ⟨rfl, _, rfl, hfor.2 ▸ hslot⟩
  · rw [if_neg hfor, decide_eq_false hfor]
    exact .inl ⟨rfl, rfl⟩

theorem slots_of_filled {source dest : IndexSet G A} {ws : List (Want G A)}
    {steps : List PlanStep} (h : List.Forall₂ (FilledBy source dest) ws steps) (rank : Nat)
    (direction : Direction) :
    List.Forall₂ (fun l slot =>
      (HaloPlan.setFor source dest direction).HasSlot (Link.localKey l) slot)
      ((ws.filter (isFor rank direction)).map Want.link)
      (steps.filterMap (PlanStep.slotFor rank direction)) := by
  induction h with
  | nil => exact .nil
  | cons hfilled _ ih =>
    obtain ⟨hfor, hnone⟩ | ⟨hfor, slot, hsome, hslot⟩ := hfilled.slotFor rank direction
    · rw [List.filter_cons_of_neg (by simp [hfor]), List.filterMap_cons_none hnone]
      exact ih
    · rw [List.filter_cons_of_pos hfor, List.map_cons, List.filterMap_cons_some hsome]
      exact .cons hslot ih

end Want

theorem Links.filter_wants (f : RoleFilter A) (k rank : Nat) (direction : Direction)
    (links : Links G A) :
    ((links.wants f k).filter (Want.isFor rank direction)).map Want.link =
      if k = rank then links.chosen f direction else [] := by
  rw [wants, List.filter_append, List.filter_map, List.filter_map, List.map_append,
    List.map_map, List.map_map]
  by_cases hrank : k = rank
  · cases direction <;> simp [Function.comp_def, Want.isFor, hrank]
  · simp [Function.comp_def, Want.isFor, hrank]

theorem LinkTable.filter_wants (t : LinkTable G A) (f : RoleFilter A) (rank : Nat)
    (direction : Direction) :
    ((t.wants f).filter (Want.isFor rank direction)).map Want.link =
    t.chosen f rank direction := by
  rw [wants, List.filter_flatMap, List.map_flatMap]
  simp only [Links.filter_wants]
  rw [NatMap.flatMap_entries t.links rank _ fun e he => if_neg he]
  simp only [if_true]
  rfl

namespace HaloPlan

/-- Room for as many slots as are counted, for each rank in turn. -/
def roomFor (count : Nat → Direction → Nat) (ranks : List Nat) : List PlanStep :=
  ranks.flatMap fun rank => [.reserve rank .send (count rank .send),
    .reserve rank .receive (count rank .receive)]

theorem slotFor_roomFor (count : Nat → Direction → Nat) (ranks : List Nat) (rank : Nat)
    (direction : Direction) :
    (roomFor count ranks).filterMap (PlanStep.slotFor rank direction) = [] := by
  rw [roomFor, List.filterMap_flatMap]
  exact List.flatMap_eq_nil_iff.mpr fun _ _ => rfl

theorem flatMap_reservations (table : LinkTable G A) (f : RoleFilter A) :
    table.links.entries.flatMap (fun e => reservations f e.1 e.2) =
      roomFor (fun rank direction =>
        (table.chosen f rank direction).length) table.links.keys := by
  rw [roomFor, NatMap.keys, List.flatMap_map]
  apply List.flatMap_congr
  intro e he
  rw [table.chosen_send, table.chosen_receive, table.sendTo_of_mem he,
    table.receiveFrom_of_mem he, reservations,
    List.countP_eq_length_filter, List.countP_eq_length_filter]

theorem isSome_strip_iff (p : HaloPlan) (rank : Nat) :
    (p.strip.lists.get? rank).isSome ↔ ∃ direction, p.strip.slots rank direction ≠ [] := by
  simp only [slots_strip]
  rw [strip, NatMap.get?_filter]
  simp only [slots]
  cases p.lists.get? rank with
  | none =>
    simp only [Option.filter_none, Option.isSome_none, Bool.false_eq_true, false_iff,
      not_exists, not_not]
    intro direction
    cases direction <;> rfl
  | some l =>
    simp only [Option.isSome_filter, Option.any_some, Option.getD_some, SlotLists.isEmpty,
      Bool.not_eq_true', Bool.and_eq_false_iff, List.isEmpty_eq_false_iff]
    constructor
    · rintro (hsend | hreceive)
      · exact ⟨.send, hsend⟩
      · exact ⟨.receive, hreceive⟩
    · rintro ⟨direction, hslots⟩
      cases direction with
      | send => exact .inl hslots
      | receive => exact .inr hslots

/-- What is added for a plan is what the links pass that are to be used, and the room for it is
right. -/
structure Filled (table : LinkTable G A) (source dest : IndexSet G A) (f : RoleFilter A)
    (count : Nat → Direction → Nat) (slots : List PlanStep) : Prop where
  inOrder : List.Forall₂ (Want.FilledBy source dest) (table.wants f) slots
  announced : ∀ rank direction,
    count rank direction = (slots.filterMap (PlanStep.slotFor rank direction)).length
  sent : ∀ rank, List.Forall₂ (fun l slot => source.HasSlot (Link.localKey l) slot)
    ((table.sendTo rank).filter fun l => f.source l.localRole && f.dest l.remoteRole)
    (slots.filterMap (PlanStep.slotFor rank .send))
  received : ∀ rank, List.Forall₂ (fun l slot => dest.HasSlot (Link.localKey l) slot)
    ((table.receiveFrom rank).filter fun l => f.source l.remoteRole && f.dest l.localRole)
    (slots.filterMap (PlanStep.slotFor rank .receive))

theorem filled_of_inOrder {table : LinkTable G A} {source dest : IndexSet G A} {f : RoleFilter A}
    {slots : List PlanStep}
    (h : List.Forall₂ (Want.FilledBy source dest) (table.wants f) slots) :
    Filled table source dest f
      (fun rank direction => (table.chosen f rank direction).length) slots := by
  have hslots := Want.slots_of_filled h
  simp only [LinkTable.filter_wants] at hslots
  have hswap (p q : Link G A → Bool) (links : List (Link G A)) :
      (links.filter fun l => p l && q l) = links.filter fun l => q l && p l :=
    List.filter_congr fun l _ => Bool.and_comm (p l) (q l)
  constructor
  case inOrder => exact h
  case announced => exact fun rank direction => (hslots rank direction).length_eq
  case sent =>
    intro rank
    have hsent := hslots rank .send
    rw [table.chosen_send] at hsent
    rw [hswap]
    exact hsent
  case received =>
    intro rank
    have hreceived := hslots rank .receive
    rw [table.chosen_receive] at hreceived
    exact hreceived

section Order

variable [Scalar G] [LT G] [LT A] [DecidableEq G] [DecidableLT G] [DecidableLT A]
  {table : LinkTable G A} {source dest : IndexSet G A} {f : RoleFilter A}

/-- The slots of wanted links, up to the first that has none. -/
def fill (source dest : IndexSet G A) : List (Want G A) → List PlanStep × Except Fault Unit
  | [] => ([], .ok ())
  | w :: rest =>
    match (setFor source dest w.direction).slotOf? w.link.localKey with
    | none => ([], .error (.danglingLink w.rank (Scalar.text w.link.globalId)))
    | some slot =>
      let (steps, outcome) := fill source dest rest
      (.add w.rank w.direction slot :: steps, outcome)

theorem additions_eq_fill (direction : Direction)
    (hphase : (setFor source dest direction).phase = .ground) (rank : Nat)
    (links : List (Link G A)) :
    additions (setFor source dest direction) rank direction links =
      fill source dest (links.map (Want.mk rank direction)) := by
  induction links with
  | nil => rfl
  | cons l links ih =>
    have hfind : (setFor source dest direction).findKey l.localKey =
        .ok ((setFor source dest direction).holdingOf l.localKey) := by
      rw [IndexSet.findKey, IndexSet.require, if_pos hphase]
      rfl
    rw [additions, hfind, List.map_cons, fill, ← ih, IndexSet.slotOf?]
    cases (setFor source dest direction).holdingOf l.localKey <;> rfl

theorem inTurn_fill (parts : List (List (Want G A))) :
    inTurn (parts.map (fill source dest)) = fill source dest parts.flatten := by
  induction parts with
  | nil => rfl
  | cons ws parts ih =>
    rw [List.map_cons, List.flatten_cons]
    induction ws with
    | nil => exact ih
    | cons w ws ihw =>
      rw [List.cons_append, fill, fill, ← ihw]
      cases (setFor source dest w.direction).slotOf? w.link.localKey with
      | none => rfl
      | some slot =>
        cases fill source dest ws with
        | mk steps outcome => cases outcome <;> rfl

theorem steps_eq_fill (hsource : source.phase = .ground) (hdest : dest.phase = .ground)
    (f : RoleFilter A) :
    steps table source dest f =
      (roomFor (fun rank direction => (table.chosen f rank direction).length) table.links.keys ++
        (fill source dest (table.wants f)).1, (fill source dest (table.wants f)).2) := by
  have hparts : (table.links.entries.flatMap fun e =>
      [additions source e.1 .send (e.2.send.filter f.sends),
        additions dest e.1 .receive (e.2.receive.filter f.receives)]) =
      (table.links.entries.flatMap fun e => [(e.2.chosen f .send).map (Want.mk e.1 .send),
        (e.2.chosen f .receive).map (Want.mk e.1 .receive)]).map (fill source dest) := by
    rw [List.map_flatMap]
    apply List.flatMap_congr
    intro e _
    rw [List.map_cons, List.map_singleton, ← additions_eq_fill .send hsource,
      ← additions_eq_fill .receive hdest]
    rfl
  have hwants : (table.links.entries.flatMap fun e =>
      [(e.2.chosen f .send).map (Want.mk e.1 .send),
      (e.2.chosen f .receive).map (Want.mk e.1 .receive)]).flatten = table.wants f := by
    rw [← List.flatMap_id, List.flatMap_assoc, LinkTable.wants]
    apply List.flatMap_congr
    intro e _
    rw [List.flatMap_id, List.flatten_cons, List.flatten_singleton, Links.wants]
  rw [steps]
  simp only [hparts, inTurn_fill, hwants, flatMap_reservations]

theorem stepsOfSynced_eq (hsynced : table.isSynced source dest = true) (f : RoleFilter A) :
    stepsOfSynced table source dest f = .ok (steps table source dest f) := by
  rw [stepsOfSynced, LinkTable.checkSynced, if_pos hsynced]
  rfl

variable [IsStrictTotalOrder G (· < ·)] [IsStrictTotalOrder A (· < ·)] (hsource : source.AtRest)
  (hdest : dest.AtRest)
include hsource hdest

theorem fill_append {before : List (Want G A)} (h : ∀ w ∈ before, w.Resolves source dest)
    (rest : List (Want G A)) : ∃ slots, List.Forall₂ (Want.FilledBy source dest) before slots ∧
      fill source dest (before ++ rest) =
      (slots ++ (fill source dest rest).1, (fill source dest rest).2) := by
  induction before with
  | nil => exact ⟨[], .nil, rfl⟩
  | cons w before ih =>
    obtain ⟨slots, hfilled, hrest⟩ := ih fun v hv => h v (List.mem_cons_of_mem _ hv)
    have hascending := (hsource.setFor hdest w.direction).ascending
    obtain ⟨slot, hslot⟩ := Option.isSome_iff_exists.mp
      ((IndexSet.isSome_slotOf?_iff hascending).mpr (h w (List.mem_cons_self ..)))
    have hhas := (IndexSet.slotOf?_eq_some_iff hascending).mp hslot
    refine ⟨.add w.rank w.direction slot :: slots, .cons (.add hhas) hfilled, ?_⟩
    rw [List.cons_append, fill, hslot, hrest]
    rfl

theorem fill_unresolved {w : Want G A} (h : ¬w.Resolves source dest) (rest : List (Want G A)) :
    fill source dest (w :: rest) =
    ([], .error (.danglingLink w.rank (Scalar.text w.link.globalId))) := by
  have hascending := (hsource.setFor hdest w.direction).ascending
  have hnone : (setFor source dest w.direction).slotOf? w.link.localKey = none := by
    rw [← Option.not_isSome_iff_eq_none, IndexSet.isSome_slotOf?_iff hascending]
    exact h
  rw [fill, hnone]

/-- A construction announces room first and then adds slots. If all links that are to be used
have slots, it adds these and nothing else, and the plan lists the ranks that have some.
Otherwise it adds those in front of the first link without a slot, which it reports, and the plan
is left empty. -/
theorem construction_exact (hsynced : table.isSynced source dest = true) (f : RoleFilter A) :
    ∃ (count : Nat → Direction → Nat) (slots : List PlanStep) (outcome : Except Fault Unit),
      stepsOfSynced table source dest f =
      .ok (roomFor count table.links.keys ++ slots, outcome) ∧
      (∀ rank direction, count rank direction = (table.chosen f rank direction).length) ∧
      ((∀ w ∈ table.wants f, w.Resolves source dest) →
        outcome = .ok () ∧ Filled table source dest f count slots ∧
        ∃ plan : HaloPlan, (∀ old : HaloPlan, old.build table source dest f = (.ok (), plan)) ∧
          (∀ rank, (plan.lists.get? rank).isSome ↔ ∃ direction, plan.slots rank direction ≠ []) ∧
          ∀ rank direction, plan.slots rank direction =
          slots.filterMap (PlanStep.slotFor rank direction)) ∧
      ∀ before w after, table.wants f = before ++ w :: after →
        (∀ v ∈ before, v.Resolves source dest) →
        ¬w.Resolves source dest →
        outcome = .error (.danglingLink w.rank (Scalar.text w.link.globalId)) ∧
        List.Forall₂ (Want.FilledBy source dest) before slots ∧
        ∀ old : HaloPlan, old.build table source dest f = (outcome, .empty) := by
  have hsteps := stepsOfSynced_eq hsynced f
  rw [steps_eq_fill hsource.phase hdest.phase] at hsteps
  refine ⟨_, _, _, hsteps, fun _ _ => rfl, ?_, ?_⟩
  · intro hresolves
    obtain ⟨slots, hfilled, hall⟩ := fill_append hsource hdest hresolves []
    rw [List.append_nil, fill, List.append_nil] at hall
    rw [hall] at hsteps ⊢
    refine ⟨rfl, filled_of_inOrder hfilled, _, fun old => by rw [build, hsteps],
      isSome_strip_iff _, ?_⟩
    intro rank direction
    rw [slots_strip, slots_applyAll, List.filterMap_append, slotFor_roomFor, List.nil_append]
    cases direction <;> rfl
  · intro before w after hwants hbefore hw
    obtain ⟨slots, hfilled, hall⟩ := fill_append hsource hdest hbefore (w :: after)
    rw [fill_unresolved hsource hdest hw, List.append_nil, ← hwants] at hall
    rw [hall] at hsteps ⊢
    exact ⟨rfl, hfilled, fun old => by rw [build, hsteps]⟩

end Order

def splitLists : LinkTable UInt64 MeshRole :=
  LinkTable.align
    { links := .ofList [(0, .split [⟨1, .owner, .overlap⟩] [⟨4, .overlap, .owner⟩]),
        (1, .split [⟨1, .owner, .overlap⟩, ⟨2, .owner, .overlap⟩] [⟨5, .overlap, .owner⟩]),
        (3, .split [⟨9, .ghost, .overlap⟩] []), (4, .split [] [])] }
    {} {}

def heldToSend : IndexSet UInt64 MeshRole :=
  { holdings := [⟨1, .valid 7 .owner true⟩, ⟨2, .valid 3 .owner true⟩] }

def heldToReceive : IndexSet UInt64 MeshRole :=
  { holdings := [⟨4, .valid 0 .overlap true⟩, ⟨5, .valid 6 .overlap true⟩] }

def allToOverlap : RoleFilter MeshRole where
  source _ := true
  dest a := decide (a = .overlap)

theorem construction_exact_splitLists :
    (∃ count slots, stepsOfSynced splitLists heldToSend heldToReceive ownersToOverlap =
        .ok (roomFor count [0, 1, 3, 4] ++ slots, .ok ()) ∧
      Filled splitLists heldToSend heldToReceive ownersToOverlap count slots) ∧
    ∃ count slots, stepsOfSynced splitLists heldToSend heldToReceive allToOverlap =
        .ok (roomFor count [0, 1, 3, 4] ++ slots, .error (.danglingLink 3 "9")) ∧
      slots.length = 5 := by
  have hsend : heldToSend.AtRest := ⟨rfl, by decide⟩
  have hreceive : heldToReceive.AtRest := ⟨rfl, by decide⟩
  have hsynced : splitLists.isSynced heldToSend heldToReceive = true := by decide +kernel
  constructor
  · obtain ⟨count, slots, outcome, hsteps, -, hresolved, -⟩ :=
      construction_exact hsend hreceive hsynced ownersToOverlap
    obtain ⟨rfl, hfilled, -⟩ := hresolved (by decide +kernel)
    exact ⟨count, slots, hsteps, hfilled⟩
  · obtain ⟨count, slots, outcome, hsteps, -, -, hdangling⟩ :=
      construction_exact hsend hreceive hsynced allToOverlap
    obtain ⟨rfl, hfilled, -⟩ := hdangling
      [⟨0, .send, ⟨1, .owner, .overlap⟩⟩, ⟨0, .receive, ⟨4, .overlap, .owner⟩⟩,
        ⟨1, .send, ⟨1, .owner, .overlap⟩⟩,
        ⟨1, .send, ⟨2, .owner, .overlap⟩⟩, ⟨1, .receive, ⟨5, .overlap, .owner⟩⟩]
      ⟨3, .send, ⟨9, .ghost, .overlap⟩⟩ [] rfl (by decide +kernel) (by decide +kernel)
    exact ⟨count, slots, hsteps, hfilled.length_eq.symm⟩

end HaloPlan

end HaloIndex
