import HaloIndex.Proofs.IndexSet.Abstraction
import Mathlib.Data.List.Permutation

namespace HaloIndex

namespace IndexSet

theorem slotAfter_lt (slot : Nat) : slotAfter slot < UInt64.size := Nat.mod_lt _ (by decide)

theorem firstFreeSlot_lt (slots : List Nat) : firstFreeSlot slots < UInt64.size := by
  rw [firstFreeSlot]
  cases slots.max? with
  | none => decide
  | some m => exact slotAfter_lt m

theorem firstFreeSlot_eq_sup (slots : List Nat) :
    firstFreeSlot slots = slots.toFinset.sup (· + 1) % UInt64.size := by
  rw [firstFreeSlot]
  cases hmax : slots.max? with
  | none =>
    rw [List.max?_eq_none_iff.mp hmax]
    rfl
  | some m =>
    obtain ⟨hm, hle⟩ := List.max?_eq_some_iff.mp hmax
    have hsup : slots.toFinset.sup (· + 1) = m + 1 := by
      apply Nat.le_antisymm
      · apply Finset.sup_le
        intro slot hslot
        exact Nat.succ_le_succ (hle slot (List.mem_toFinset.mp hslot))
      · exact Finset.le_sup (f := (· + 1)) (List.mem_toFinset.mpr hm)
    rw [hsup]
    rfl

variable {G A : Type} [DecidableEq G] [LT G] [LT A] [DecidableLT G] [DecidableLT A]
  [IsStrictTotalOrder G (· < ·)] [IsStrictTotalOrder A (· < ·)] {s : IndexSet G A}

/-- What has no slot is numbered in the order of the keys, and from zero on again behind the last
slot. -/
theorem entry_place {as : List (Addition G A)} (h : Ascending (as.map Addition.key)) {next : Nat}
    (hnext : next < UInt64.size) : (place next as).map Holding.entry = as.map fun a =>
      ⟨a.key, a.slot.getD
          ((next + ((as.filter (·.slot = none)).map Addition.key).countP
            (· < a.key)) % UInt64.size),
        a.isPublic⟩ := by
  induction as generalizing next with
  | nil => rfl
  | cons a as ih =>
    obtain ⟨ha, has⟩ := List.pairwise_cons.mp h
    have hnone : ((as.filter (·.slot = none)).map Addition.key).countP (· < a.key) = 0 := by
      rw [List.countP_eq_zero]
      intro k hk
      have hsub := (List.filter_sublist.map Addition.key).subset hk
      simpa using asymm (ha k hsub)
    cases hslot : a.slot with
    | some slot =>
      have hfilter : (a :: as).filter (·.slot = none) = as.filter (·.slot = none) :=
        List.filter_cons_of_neg (by simp [hslot])
      rw [place, hslot, hfilter, List.map_cons, List.map_cons, ih has hnext, hslot]
      rfl
    | none =>
      have hfilter : (a :: as).filter (·.slot = none) = a :: as.filter (·.slot = none) :=
        List.filter_cons_of_pos (by simp [hslot])
      have hhead : ((a :: as.filter (·.slot = none)).map Addition.key).countP
          (· < a.key) = 0 := by
        rw [List.map_cons, List.countP_cons_of_neg (by simpa using irrefl a.key), hnone]
      rw [place, hslot, hfilter, List.map_cons, List.map_cons,
        ih has (slotAfter_lt next), hhead, hslot, Nat.add_zero, Nat.mod_eq_of_lt hnext]
      apply congrArg₂ List.cons rfl
      apply List.map_congr_left
      intro b hb
      have hlt : a.key < b.key := ha b.key (List.mem_map_of_mem hb)
      rw [List.map_cons, List.countP_cons_of_pos (by simpa using hlt), slotAfter,
        Nat.mod_add_mod, Nat.add_right_comm, Nat.add_assoc next]

theorem WellFormed.ascending_sortedAdditions (hs : s.WellFormed) :
    Ascending (s.sortedAdditions.map Addition.key) := by
  apply Ascending.of_weakly
  · exact List.pairwise_map.mpr (pairwise_mergeSort_key Addition.key s.additions)
  · exact (s.perm_sortedAdditions.map Addition.key).nodup_iff.mpr hs.distinct

variable [DecidableEq A]

theorem WellFormed.entry_placed (hs : s.WellFormed) :
    (place s.ledger.nextSlot s.sortedAdditions).map Holding.entry =
      s.sortedAdditions.map s.ledger.entryFor := by
  have hascending := hs.ascending_sortedAdditions
  have hunplaced : (s.ledger.waiting.filter (·.slot = none)).image Addition.key =
      ((s.sortedAdditions.filter (·.slot = none)).map Addition.key).toFinset := by
    ext k
    simp [ledger, sortedAdditions]
  have hnodup : ((s.sortedAdditions.filter (·.slot = none)).map Addition.key).Nodup :=
    hascending.nodup.sublist (List.filter_sublist.map _)
  have hnext : s.ledger.nextSlot < UInt64.size := Nat.mod_lt _ (by decide)
  rw [entry_place hascending hnext]
  apply List.map_congr_left
  intro a _
  simp only [Ledger.entryFor, hunplaced, below_toFinset hnodup]

theorem WellFormed.ledger_merged (hs : s.WellFormed) : (s.merged.map Holding.entry).toFinset =
    s.ledger.live ∪ s.ledger.waiting.image s.ledger.entryFor := by
  have hnext : firstFreeSlot s.fixedSlots = s.ledger.nextSlot := by
    rw [firstFreeSlot_eq_sup, ← hs.slots_ledger, Ledger.nextSlot]
  have hplaced (e : Entry G A) : (∃ h ∈ place s.ledger.nextSlot s.sortedAdditions, h.entry = e) ↔
      ∃ a ∈ s.ledger.waiting, s.ledger.entryFor a = e := by
    rw [← List.mem_map, hs.entry_placed, List.mem_map]
    simp only [sortedAdditions, List.mem_mergeSort, ledger, List.mem_toFinset]
  ext e
  simp only [List.mem_toFinset, List.mem_map, mem_merged, or_and_right, exists_or,
    Finset.mem_union, hs.mem_live, Finset.mem_image, hnext, hplaced]

theorem WellFormed.stable_renumbered (hs : s.WellFormed) :
    ((s.holdings.mapIdx fun i h => h.withSlot i).map Holding.entry).toFinset =
      s.ledger.stable.image fun e => { e with slot := Ledger.below s.ledger.keys e.key } := by
  have hentry {i : Nat} (hi : i < s.holdings.length) : (s.holdings[i].withSlot i).entry =
      { s.holdings[i].entry with
        slot := Ledger.below s.ledger.keys s.holdings[i].entry.key } := by
    rw [show s.holdings[i].entry.key = s.holdings[i].key from rfl, hs.below_getElem hi]
    rfl
  ext e
  simp only [List.mem_toFinset, List.mem_map, List.mem_mapIdx, Finset.mem_image,
    mem_stable_ledger]
  constructor
  · rintro ⟨_, ⟨i, hi, rfl⟩, rfl⟩
    exact ⟨_, ⟨_, List.getElem_mem hi, rfl⟩, (hentry hi).symm⟩
  · rintro ⟨_, ⟨h, hh, rfl⟩, rfl⟩
    obtain ⟨i, hi, rfl⟩ := List.getElem_of_mem hh
    exact ⟨_, ⟨i, hi, rfl⟩, hentry hi⟩

theorem WellFormed.mem_held (hs : s.WellFormed) (key : Key G A) :
    key ∈ s.ledger.liveKeys ∪ s.ledger.pending ↔ s.holds key = true := by
  rw [Finset.mem_union, hs.mem_liveKeys, pending_ledger, List.mem_toFinset,
    holds_iff hs.ascending, hs.queued]

theorem WellFormed.ledger_deleteAt (hs : s.WellFormed) {i : Nat} (hi : i < s.holdings.length) :
    ledger { s with holdings := s.holdings.modify i (Holding.withState · .deleted) } =
      { s.ledger with
        doomed :=
          s.ledger.doomed ∪ s.ledger.keys.filter (Ledger.below s.ledger.keys · = i) } := by
  have hsplit : s.holdings =
      s.holdings.take i ++ [s.holdings[i]] ++ s.holdings.drop (i + 1) := by
    simp
  have hflag := ledger_flag hsplit
  rw [hs.filter_below hi, List.modify_eq_take_cons_drop hi]
  simpa using hflag

omit [DecidableLT A] [IsStrictTotalOrder A (· < ·)] in
theorem WellFormed.ledger_deleteGlobal (hs : s.WellFormed) (globalId : G) :
    ((s.splitAtGlobal globalId).2.1.map Holding.key).toFinset =
      s.ledger.keys.filter (·.globalId = globalId) := by
  ext k
  rw [splitAtGlobal_eq hs.ascending, keys_ledger]
  simp only [List.mem_toFinset, List.mem_map, List.mem_filter, decide_eq_true_eq,
    Finset.mem_filter, mem_keys]
  constructor
  · rintro ⟨h, ⟨hh, hglobal⟩, rfl⟩
    exact ⟨⟨h, hh, rfl⟩, hglobal⟩
  · rintro ⟨⟨h, hh, rfl⟩, hglobal⟩
    exact ⟨h, ⟨hh, hglobal⟩, rfl⟩

omit [DecidableLT A] in
theorem WellFormed.count_deleteGlobal (hs : s.WellFormed) (globalId : G) :
    (s.ledger.keys.filter (·.globalId = globalId) \ s.ledger.doomed).card =
      (s.splitAtGlobal globalId).2.1.countP (!·.isDeleted) := by
  have hsame := splitAtGlobal_eq hs.ascending globalId
  have hkept : s.ledger.keys.filter (·.globalId = globalId) \ s.ledger.doomed =
      (((s.splitAtGlobal globalId).2.1.filter (!·.isDeleted)).map Holding.key).toFinset := by
    ext k
    rw [Finset.mem_sdiff, ← hs.ledger_deleteGlobal, hsame]
    simp only [List.mem_toFinset, List.mem_map]
    constructor
    · rintro ⟨⟨h, hh, rfl⟩, hlive⟩
      have hkept := mt (hs.mem_doomed_iff (List.mem_filter.mp hh).1).mpr hlive
      exact ⟨h, List.mem_filter.mpr ⟨hh, by simpa using hkept⟩, rfl⟩
    · rintro ⟨h, hh, rfl⟩
      obtain ⟨hmem, hkept⟩ := List.mem_filter.mp hh
      refine ⟨⟨h, hmem, rfl⟩, fun hdoomed => ?_⟩
      rw [(hs.mem_doomed_iff (List.mem_filter.mp hmem).1).mp hdoomed] at hkept
      cases hkept
  have hnodup : (((s.splitAtGlobal globalId).2.1.filter
      (!·.isDeleted)).map Holding.key).Nodup := by
    rw [hsame]
    exact hs.ascending.nodup.sublist ((List.filter_sublist.trans List.filter_sublist).map _)
  rw [hkept, List.toFinset_card_of_nodup hnodup, List.length_map, List.countP_eq_length_filter]

theorem WellFormed.ledger_commit (hs : s.WellFormed) :
    s.committed.ledger =
      { stable := s.ledger.live ∪ s.ledger.waiting.image s.ledger.entryFor
        phase := .ground, revision := s.ledger.revision + 1 } := by
  have hkept : s.merged.filter (·.isDeleted) = [] := by
    rw [List.filter_eq_nil_iff]
    intro h hh
    simp [isDeleted_of_mem_merged hh]
  rw [ledger, Ledger.mk.injEq]
  refine ⟨hs.ledger_merged, ?_, rfl, rfl, rfl⟩
  rw [IndexSet.committed, hkept]
  rfl

theorem WellFormed.ledger_renumber (hs : s.WellFormed) :
    ledger { s with holdings := s.holdings.mapIdx fun i h => h.withSlot i } =
      { s.ledger with stable := s.ledger.stable.image fun e =>
          { e with slot := Ledger.below s.ledger.keys e.key } } := by
  rw [ledger, Ledger.mk.injEq]
  refine ⟨hs.stable_renumbered, ?_, rfl, rfl, rfl⟩
  ext k
  rw [List.mem_toFinset, mem_doomed_ledger]
  simp only [List.mem_map, List.mem_filter, List.mem_mapIdx, and_assoc]
  constructor
  · rintro ⟨_, ⟨i, hi, rfl⟩, hdeleted, rfl⟩
    exact ⟨_, List.getElem_mem hi, hdeleted, rfl⟩
  · rintro ⟨h, hh, hdeleted, rfl⟩
    obtain ⟨i, hi, rfl⟩ := List.getElem_of_mem hh
    exact ⟨_, ⟨i, hi, rfl⟩, hdeleted, rfl⟩

variable [Scalar G] [Role A]

def answering {α : Type} (count : α → Option Nat) (r : Except Fault α × IndexSet G A) :
    Except Fault (Option Nat) × IndexSet G A := (r.1.map count, r.2)

/-- Make a call, and give the count it answers with if it counts. -/
def answer (s : IndexSet G A) : Call G A → Except Fault (Option Nat) × IndexSet G A
  | .beginResize => answering (fun _ => none) s.beginResize
  | .add key isPublic slot => answering (fun _ => none) (s.add key isPublic slot)
  | .deleteAt position => answering (fun _ => none) (s.deleteAt position)
  | .deleteGlobal globalId => answering some (s.deleteGlobal globalId)
  | .commit => answering (fun _ => none) s.commit
  | .renumber => answering (fun _ => none) s.renumber

omit [DecidableEq G] [LT G] [LT A] [DecidableLT G] [DecidableLT A] [IsStrictTotalOrder G (· < ·)]
  [IsStrictTotalOrder A (· < ·)] [DecidableEq A] [Scalar G] [Role A] in
theorem exists_of_answering {α : Type} {count : α → Option Nat}
    {r : Except Fault α × IndexSet G A} {outcome : Except Fault (Option Nat)} {s' : IndexSet G A}
    (h : answering count r = (outcome, s')) :
    ∃ result, r = (result, s') ∧ outcome = result.map count := by
  obtain ⟨result, t⟩ := r
  cases h
  exact ⟨result, rfl, rfl⟩

/-- What a call does if it is not refused. -/
inductive Effect (s : IndexSet G A) : Call G A → IndexSet G A → Prop where
  | opens (hphase : s.phase = .ground) : Effect s .beginResize { s with phase := .resize }
  | adds {key : Key G A} {isPublic : Bool} {slot : Option Nat} (hphase : s.phase = .resize)
      (hnew : s.holds key = false) :
    Effect s (.add key isPublic slot) (s.queue ⟨key, slot, isPublic⟩)
  | flagsOne {position : Nat} {before same after : List (Holding G A)}
      (hphase : s.phase = .resize) (hsplit : s.holdings = before ++ same ++ after) :
    Effect s (.deleteAt position) { s with
      holdings := before ++ same.map (Holding.withState · .deleted) ++ after }
  | flagsAll {globalId : G} {before same after : List (Holding G A)} (hphase : s.phase = .resize)
      (hsplit : s.holdings = before ++ same ++ after) :
    Effect s (.deleteGlobal globalId) { s with
      holdings := before ++ same.map (Holding.withState · .deleted) ++ after }
  | commits (hphase : s.phase = .resize) : Effect s .commit s.committed
  | renumbers (hphase : s.phase = .ground) :
    Effect s .renumber { s with holdings := s.holdings.mapIdx fun i h => h.withSlot i }

omit [IsStrictTotalOrder G (· < ·)] [IsStrictTotalOrder A (· < ·)] in
theorem effect_or_refused {s' : IndexSet G A} {call : Call G A}
    {outcome : Except Fault (Option Nat)} (h : s.answer call = (outcome, s')) :
    outcome.isOk = true ∧ s.Effect call s' ∨ outcome.isOk = false ∧ s' = s := by
  cases call
  all_goals
    obtain ⟨result, hresult, rfl⟩ := exists_of_answering h
    rcases cases_afterCheck hresult with ⟨hphase, hdone⟩ | ⟨hrefused, rfl⟩
    rotate_left
    · cases result with
      | error => exact .inr ⟨rfl, rfl⟩
      | ok => cases hrefused
  case beginResize =>
    cases hdone
    exact .inl ⟨rfl, .opens hphase⟩
  case add =>
    split at hdone
    next =>
      cases hdone
      exact .inr ⟨rfl, rfl⟩
    next hnew =>
      cases hdone
      exact .inl ⟨rfl, .adds hphase (by simpa using hnew)⟩
  case deleteAt =>
    split at hdone
    next hlt =>
      cases hdone
      obtain ⟨before, same, after, hsplit, hmodify⟩ := modify_eq_flag hlt
      rw [hmodify]
      exact .inl ⟨rfl, .flagsOne hphase hsplit⟩
    next =>
      cases hdone
      exact .inr ⟨rfl, rfl⟩
  case deleteGlobal =>
    cases hdone
    exact .inl ⟨rfl, .flagsAll hphase (s.splitAtGlobal_append _).symm⟩
  case commit =>
    cases hdone
    exact .inl ⟨rfl, .commits hphase⟩
  case renumber =>
    cases hdone
    exact .inl ⟨rfl, .renumbers hphase⟩

omit [IsStrictTotalOrder G (· < ·)] [IsStrictTotalOrder A (· < ·)] in
theorem effect_of_answer {s' : IndexSet G A} {call : Call G A} {count : Option Nat}
    (h : s.answer call = (.ok count, s')) : s.Effect call s' := by
  rcases effect_or_refused h with ⟨-, heffect⟩ | ⟨hok, -⟩
  · exact heffect
  · cases hok

omit [IsStrictTotalOrder G (· < ·)] [IsStrictTotalOrder A (· < ·)] in
theorem eq_of_refused {call : Call G A} {f : Fault} {s' : IndexSet G A}
    (h : s.answer call = (.error f, s')) : s' = s := by
  rcases effect_or_refused h with ⟨hok, -⟩ | ⟨-, hsame⟩
  · cases hok
  · exact hsame

omit [IsStrictTotalOrder G (· < ·)] [IsStrictTotalOrder A (· < ·)] in
theorem phase_answer {call : Call G A} {outcome : Except Fault (Option Nat)} {s' : IndexSet G A}
    (hphase : s.phase = .resize) (h : s.answer call = (outcome, s')) (hcall : call ≠ .commit) :
    s'.phase = .resize := by
  rcases effect_or_refused h with ⟨-, heffect⟩ | ⟨-, rfl⟩
  · cases heffect with
    | opens => rfl
    | adds | flagsOne | flagsAll | renumbers => exact hphase
    | commits => exact absurd rfl hcall
  · exact hphase

theorem WellFormed.answer {s' : IndexSet G A} {call : Call G A}
    {outcome : Except Fault (Option Nat)} (hs : s.WellFormed)
    (h : s.answer call = (outcome, s')) : s'.WellFormed := by
  cases call <;> obtain ⟨result, hresult, -⟩ := exists_of_answering h
  case beginResize => exact hs.beginResize hresult
  case add => exact hs.add hresult
  case deleteAt => exact hs.deleteAt hresult
  case deleteGlobal => exact hs.deleteGlobal hresult
  case commit => exact hs.commit hresult
  case renumber => exact hs.renumber hresult

omit [IsStrictTotalOrder G (· < ·)] [IsStrictTotalOrder A (· < ·)] in
theorem Reachable.answer {call : Call G A} {outcome : Except Fault (Option Nat)}
    {s' : IndexSet G A} (hs : s.Reachable) (h : s.answer call = (outcome, s')) :
    s'.Reachable := by
  cases call <;> obtain ⟨result, hresult, -⟩ := exists_of_answering h
  case beginResize => exact hs.beginResize hresult
  case add => exact hs.add hresult
  case deleteAt => exact hs.deleteAt hresult
  case deleteGlobal => exact hs.deleteGlobal hresult
  case commit => exact hs.commit hresult
  case renumber => exact hs.renumber hresult

omit [IsStrictTotalOrder G (· < ·)] [IsStrictTotalOrder A (· < ·)] in
theorem reachable_replay (calls : List (Call G A)) :
    (replay IndexSet.answer empty calls).2.Reachable :=
  replay_invariant (fun _ _ hs => hs.answer rfl) .empty calls

theorem wellFormed_replay (hs : s.WellFormed) (calls : List (Call G A)) :
    (replay IndexSet.answer s calls).2.WellFormed :=
  replay_invariant (fun _ _ hs => hs.answer rfl) hs calls

omit [DecidableLT G] [DecidableLT A] [Scalar G] [Role A] [LT G] [LT A]
  [IsStrictTotalOrder G (· < ·)] [IsStrictTotalOrder A (· < ·)] in
theorem afterCheck_ledger {α : Type} {count : α → Option Nat} {operation : String}
    {expected : Phase} {change : Except Fault α × IndexSet G A}
    {change' : Except Fault (Option Nat) × Ledger G A}
    (h : change' = (change.1.map count, change.2.ledger)) :
    afterCheck (s.ledger.require operation expected) s.ledger change' =
      ((afterCheck (s.require operation expected) s change).1.map count,
        (afterCheck (s.require operation expected) s change).2.ledger) := by
  rw [require_ledger]
  cases s.require operation expected with
  | error => rfl
  | ok => exact h

theorem answer_ledger (hs : s.WellFormed) (call : Call G A) :
    s.ledger.step call = ((s.answer call).1, (s.answer call).2.ledger) := by
  cases call with
  | beginResize => exact afterCheck_ledger rfl
  | add key isPublic slot =>
    apply afterCheck_ledger
    by_cases hheld : s.holds key = true
    · simp only [hs.mem_held, hheld, if_true]
      rfl
    · have hinsert : (s.queue ⟨key, slot, isPublic⟩).ledger =
          { s.ledger with waiting := insert ⟨key, slot, isPublic⟩ s.ledger.waiting } := by
        simp [ledger, queue]
      simp only [hs.mem_held, hheld, Bool.false_eq_true, if_false, hinsert]
      rfl
  | deleteAt position =>
    apply afterCheck_ledger
    rw [hs.card_keys]
    by_cases hlt : position < s.size
    · simp only [hlt, if_true, hs.ledger_deleteAt hlt]
      rfl
    · simp only [hlt, if_false]
      rfl
  | deleteGlobal globalId =>
    apply afterCheck_ledger
    have hflag := ledger_flag (s.splitAtGlobal_append globalId).symm
    rw [hs.ledger_deleteGlobal] at hflag
    simp only [hs.count_deleteGlobal, hflag]
    rfl
  | commit =>
    apply afterCheck_ledger
    exact congrArg (Prod.mk _) hs.ledger_commit.symm
  | renumber =>
    apply afterCheck_ledger
    simp only [hs.ledger_renumber]
    rfl

/-- A set and its ledger never part, whatever is called. -/
theorem replay_ledger (hs : s.WellFormed) (calls : List (Call G A)) :
    replay Ledger.step s.ledger calls =
    ((replay IndexSet.answer s calls).1, (replay IndexSet.answer s calls).2.ledger) :=
  replay_view (fun _ _ hs => WellFormed.answer hs rfl)
    (fun _ call hs => answer_ledger hs call) hs calls

omit [IsStrictTotalOrder G (· < ·)] [IsStrictTotalOrder A (· < ·)] in
theorem revision_answer {call : Call G A} {outcome : Except Fault (Option Nat)}
    {s' : IndexSet G A} (hcall : call ≠ .commit) (h : s.answer call = (outcome, s')) :
    s'.revision = s.revision := by
  rcases effect_or_refused h with ⟨-, heffect⟩ | ⟨-, rfl⟩
  · cases heffect with
    | commits => exact absurd rfl hcall
    | opens | adds | flagsOne | flagsAll | renumbers => rfl
  · rfl

/-- An addition outside a window, one that is there already, a key given up and added again, and
a position that does not exist. -/
def mixedCalls : List (Call UInt64 MeshRole) :=
  [.add ⟨5, .owner⟩ true none, .beginResize, .add ⟨5, .owner⟩ true none,
    .add ⟨2, .ghost⟩ false (some 4),
    .add ⟨5, .owner⟩ false (some 1), .commit, .beginResize, .deleteGlobal 5,
      .add ⟨5, .owner⟩ false (some 7),
    .deleteGlobal 5, .deleteAt 0, .deleteAt 2, .commit, .renumber]

end IndexSet

end HaloIndex
