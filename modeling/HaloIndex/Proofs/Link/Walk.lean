import HaloIndex.Proofs.Link.Lockstep
import Mathlib.Data.List.Sort

namespace HaloIndex

namespace NatMap

variable {β : Type}

theorem mem_ofList {entries : List (Nat × β)} (h : (entries.map Prod.fst).Nodup) {e : Nat × β} :
    e ∈ (ofList entries).entries ↔ e ∈ entries := by
  have hlast {other : Nat × β}
      (hother : (entries.filter fun x => x.1 == e.1).getLast? = some other) :
      other ∈ entries ∧ other.1 = e.1 := by
    simpa using List.mem_filter.mp (List.mem_of_getLast? hother)
  rw [← get?_eq_some_iff, get?_ofList, Option.map_eq_some_iff]
  constructor
  · rintro ⟨other, hother, hvalue⟩
    obtain ⟨hmem, hkey⟩ := hlast hother
    exact Prod.ext hkey hvalue ▸ hmem
  · intro he
    have hsome : (entries.filter fun x => x.1 == e.1) ≠ [] :=
      List.ne_nil_of_mem (List.mem_filter.mpr ⟨he, beq_self_eq_true _⟩)
    obtain ⟨hmem, hkey⟩ := hlast (List.getLast?_eq_some_getLast hsome)
    exact ⟨_, List.getLast?_eq_some_getLast hsome,
      congrArg Prod.snd (List.inj_on_of_nodup_map h hmem he hkey)⟩

end NatMap

inductive Move (G A : Type) where
  | advance (target : Target G A)
  | bump
  deriving DecidableEq

variable {G A : Type}

namespace Target

def Above [LT G] [LT A] (t : Target G A) (l : Link G A) : Prop :=
  l.globalId < t.globalId ∨ l.globalId = t.globalId ∧ ∃ a ∈ t.role, l.localRole < a

def Meets (t : Target G A) (l : Link G A) : Prop :=
  l.globalId = t.globalId ∧ ∀ a ∈ t.role, l.localRole = a

theorem isAt_iff [DecidableEq G] [DecidableEq A] {t : Target G A} {l : Link G A} :
    t.isAt l = true ↔ t.Meets l := by
  obtain ⟨globalId, role⟩ := t
  cases role <;> simp [isAt, Meets]

theorem isAfter_iff [LT G] [LT A] [DecidableEq G] [DecidableLT G] [DecidableLT A]
    {t : Target G A} {l : Link G A} : t.isAfter l = true ↔ t.Above l := by
  obtain ⟨globalId, role⟩ := t
  cases role <;> simp [isAfter, Above, Key.lt_iff, Link.localKey]

variable [LT G] [LT A] [IsStrictTotalOrder G (· < ·)] [IsStrictTotalOrder A (· < ·)]
  {t : Target G A} {l m : Link G A}

theorem Above.of_le [DecidableLT G] [DecidableLT A] (h : t.Above m)
    (hle : ¬m.localKey < l.localKey) :
    t.Above l := by
  have hglobal : ¬m.globalId < l.globalId := fun hlt => hle (.inl hlt)
  by_contra hnot
  rw [Above, not_or] at hnot
  rcases h with hlt | ⟨heq, a, ha, hlt⟩
  · exact not_lt_trans hnot.1 hglobal hlt
  · have hsame : l.globalId = t.globalId :=
      Std.Trichotomous.trichotomous _ _ hnot.1 (heq ▸ hglobal)
    have hrole : ¬m.localRole < l.localRole := fun hlt => hle (.inr ⟨heq.trans hsame.symm, hlt⟩)
    exact not_lt_trans (fun hlt => hnot.2 ⟨hsame, a, ha, hlt⟩) hrole hlt

theorem Meets.of_le (h : t.Meets m) (hle : ¬m.localKey < l.localKey) (hahead : ¬t.Above l) :
    t.Meets l := by
  have hglobal : ¬m.globalId < l.globalId := fun hlt => hle (.inl hlt)
  have hsame : l.globalId = t.globalId :=
    Std.Trichotomous.trichotomous _ _ (fun hlt => hahead (.inl hlt)) (h.1 ▸ hglobal)
  refine ⟨hsame, fun a ha => ?_⟩
  have hrole : ¬m.localRole < l.localRole := fun hlt => hle (.inr ⟨h.1.trans hsame.symm, hlt⟩)
  exact Std.Trichotomous.trichotomous _ _ (fun hlt => hahead (.inr ⟨hsame, a, ha, hlt⟩))
    (h.2 a ha ▸ hrole)

end Target

namespace Move

/-- The target in force after some moves, if it was this one before. -/
def inForce (target : Option (Target G A)) (moves : List (Move G A)) : Option (Target G A) :=
  moves.foldl (fun target move => match move with
    | advance t => some t
    | bump => target) target

/-- Some advance so far had a target above the link, or the link met the target in force at some
bump. -/
def Passed [LT G] [LT A] (target : Option (Target G A)) (moves : List (Move G A))
    (l : Link G A) : Prop :=
  (∃ t, advance t ∈ moves ∧ t.Above l) ∨
    ∃ before after, moves = before ++ bump :: after ∧ ∃ t ∈ inForce target before, t.Meets l

section Passing

variable [LT G] [LT A] {target : Option (Target G A)} {l : Link G A}

theorem not_passed_nil : ¬Passed target [] l := by
  rintro (⟨t, ht, -⟩ | ⟨before, after, hsplit, -⟩)
  · cases ht
  · simp at hsplit

theorem passed_advance {t : Target G A} {moves : List (Move G A)} :
    Passed target (advance t :: moves) l ↔ t.Above l ∨ Passed (some t) moves l := by
  constructor
  · rintro (⟨t', ht', habove⟩ | ⟨before, after, hsplit, hmeets⟩)
    · rcases List.mem_cons.mp ht' with he | hmem
      · cases he
        exact .inl habove
      · exact .inr (.inl ⟨t', hmem, habove⟩)
    · obtain ⟨rfl, hbump⟩ | ⟨rest, rfl, rfl⟩ := List.cons_eq_append_iff.mp hsplit
      · cases hbump
      · exact .inr (.inr ⟨rest, after, rfl, hmeets⟩)
  · rintro (habove | ⟨t', ht', habove⟩ | ⟨before, after, rfl, hmeets⟩)
    · exact .inl ⟨t, List.mem_cons_self .., habove⟩
    · exact .inl ⟨t', List.mem_cons_of_mem _ ht', habove⟩
    · exact .inr ⟨advance t :: before, after, rfl, hmeets⟩

theorem passed_bump {moves : List (Move G A)} :
    Passed target (bump :: moves) l ↔ (∃ t ∈ target, t.Meets l) ∨ Passed target moves l := by
  constructor
  · rintro (⟨t, ht, habove⟩ | ⟨before, after, hsplit, hmeets⟩)
    · rcases List.mem_cons.mp ht with he | hmem
      · cases he
      · exact .inr (.inl ⟨t, hmem, habove⟩)
    · obtain ⟨rfl, -⟩ | ⟨rest, rfl, rfl⟩ := List.cons_eq_append_iff.mp hsplit
      · exact .inl hmeets
      · exact .inr (.inr ⟨rest, after, rfl, hmeets⟩)
  · rintro (hmeets | ⟨t, ht, habove⟩ | ⟨before, after, rfl, hmeets⟩)
    · exact .inr ⟨[], moves, rfl, hmeets⟩
    · exact .inl ⟨t, List.mem_cons_of_mem _ ht, habove⟩
    · exact .inr ⟨bump :: before, after, rfl, hmeets⟩

end Passing

section Deciding

variable [DecidableEq G] [DecidableEq A] [LT G] [LT A] [DecidableLT G] [DecidableLT A]

instance (t : Target G A) (l : Link G A) : Decidable (t.Above l) :=
  decidable_of_iff _ Target.isAfter_iff

instance (t : Target G A) (l : Link G A) : Decidable (t.Meets l) :=
  decidable_of_iff _ Target.isAt_iff

instance decidablePassed (target : Option (Target G A)) :
    (moves : List (Move G A)) → (l : Link G A) → Decidable (Passed target moves l)
  | [], _ => isFalse not_passed_nil
  | advance t :: moves, l =>
    have := decidablePassed (some t) moves l
    decidable_of_iff' _ passed_advance
  | bump :: moves, l =>
    have := decidablePassed target moves l
    decidable_of_iff' _ passed_bump

end Deciding

end Move

namespace Lockstep

section Remaining

def remaining (p : Link G A → Bool) (lists : List (Nat × List (Link G A))) :
    List (Nat × List (Link G A)) :=
  (lists.map fun e => (e.1, e.2.filter p)).filter fun e => !e.2.isEmpty

theorem mem_remaining {p : Link G A → Bool} {lists : List (Nat × List (Link G A))}
    {e : Nat × List (Link G A)} :
    e ∈ remaining p lists ↔
    (∃ links, (e.1, links) ∈ lists ∧ links.filter p = e.2) ∧ e.2 ≠ [] := by
  obtain ⟨rank, lane⟩ := e
  simp [remaining]

theorem remaining_eq_nil {p : Link G A → Bool} {lists : List (Nat × List (Link G A))} :
    remaining p lists = [] ↔ ∀ e ∈ lists, ∀ l ∈ e.2, p l = false := by
  rw [remaining, List.filter_eq_nil_iff, List.forall_mem_map]
  simp

theorem remaining_congr {p q : Link G A → Bool} {lists : List (Nat × List (Link G A))}
    (h : ∀ e ∈ lists, ∀ l ∈ e.2, p l = q l) : remaining p lists = remaining q lists := by
  have hfilter : ∀ e ∈ lists, (e.1, e.2.filter p) = (e.1, e.2.filter q) := fun e he =>
    congrArg (Prod.mk e.1) (List.filter_congr (h e he))
  rw [remaining, remaining, List.map_congr_left hfilter]

theorem remaining_of_all {p : Link G A → Bool} {lists : List (Nat × List (Link G A))}
    (hfull : ∀ e ∈ lists, e.2 ≠ []) (h : ∀ e ∈ lists, ∀ l ∈ e.2, p l = true) :
    remaining p lists = lists := by
  have hfilter : ∀ e ∈ lists, (e.1, e.2.filter p) = e := fun e he =>
    congrArg (Prod.mk e.1) (List.filter_eq_self.mpr (h e he))
  rw [remaining, List.map_congr_left hfilter, List.map_id', List.filter_eq_self]
  simpa using hfull

theorem remaining_remaining (p q : Link G A → Bool) (lists : List (Nat × List (Link G A))) :
    remaining q (remaining p lists) = remaining (fun l => p l && q l) lists := by
  have hskip : (remaining p lists).filter
      ((fun e => !e.2.isEmpty) ∘ fun e => (e.1, e.2.filter q)) =
      (lists.map fun e => (e.1, e.2.filter p)).filter
        ((fun e => !e.2.isEmpty) ∘ fun e => (e.1, e.2.filter q)) := by
    rw [remaining, List.filter_filter]
    apply List.filter_congr
    rintro ⟨rank, lane⟩ -
    cases lane <;> simp
  rw [remaining, List.filter_map, hskip, ← List.filter_map, List.map_map, remaining]
  simp only [Function.comp_def, List.filter_filter, Bool.and_comm]

theorem flatMap_remaining {p q : Link G A → Bool} (lists : List (Nat × List (Link G A))) :
    (remaining p lists).flatMap (fun e => (e.2.filter q).map fun l => (e.1, l)) =
      lists.flatMap fun e => (e.2.filter fun l => p l && q l).map fun l => (e.1, l) := by
  rw [remaining, flatMap_filter_of_nil, List.flatMap_map]
  · simp only [List.filter_filter, Bool.and_comm]
  · rintro ⟨rank, lane⟩ - hlane
    obtain rfl : lane = [] := by simpa using hlane
    rfl

def byRank (lists : List (Nat × List (Link G A))) : List (Nat × List (Link G A)) :=
  lists.mergeSort fun e e' => !decide (e'.1 < e.1)

variable {lists : List (Nat × List (Link G A))}

theorem ascending_byRank (hranks : (lists.map Prod.fst).Nodup) :
    (byRank lists).Pairwise fun e e' => e.1 < e'.1 := by
  have hsorted : (byRank lists).Pairwise fun e e' => ¬e'.1 < e.1 :=
    pairwise_mergeSort_key Prod.fst lists
  have hnodup : ((byRank lists).map Prod.fst).Nodup :=
    ((List.mergeSort_perm lists _).map Prod.fst).nodup_iff.mpr hranks
  exact (hsorted.and (List.pairwise_map.mp hnodup)).imp fun h =>
    Nat.lt_of_le_of_ne (Nat.not_lt.mp h.1) h.2

theorem entries_ofLists (hranks : (lists.map Prod.fst).Nodup) :
    (ofLists lists).lanes.entries = remaining (fun _ => true) (byRank lists) := by
  apply NatMap.entries_unique (ofLists lists).lanes.ascending
  · have hall : ((byRank lists).map fun e => (e.1, e.2.filter fun _ => true)).Pairwise
        fun e e' => e.1 < e'.1 := List.pairwise_map.mpr (ascending_byRank hranks)
    exact hall.filter _
  · intro e
    have hfilter : ((lists.filter fun e => !e.2.isEmpty).map Prod.fst).Nodup :=
      hranks.sublist (List.filter_sublist.map _)
    rw [ofLists, NatMap.mem_ofList hfilter, mem_remaining]
    simp [byRank]

end Remaining

section Moves

variable [DecidableEq G] [DecidableEq A]

theorem isAtTarget_iff {s : Lockstep G A} {l : Link G A} :
    s.isAtTarget l = true ↔ ∃ t ∈ s.target, t.Meets l := by
  rw [isAtTarget, Option.any_eq_true]
  simp only [Target.isAt_iff]
  rfl

@[simp]
theorem target_bump (s : Lockstep G A) : s.bump.target = s.target := by
  unfold bump
  split <;> rfl

theorem mem_matchingRanks {s : Lockstep G A} {rank : Nat} :
    rank ∈ s.matchingRanks ↔ ∃ l, (rank, l) ∈ s.current := by
  have hhead (lane : List (Link G A)) :
      lane.head?.any s.isAtTarget = true ↔ ∃ l, l ∈ lane.takeWhile s.isAtTarget := by
    cases lane with
    | nil => simp
    | cons l lane => by_cases h : s.isAtTarget l = true <;> simp [h]
  simp only [matchingRanks, Lockstep.current, List.mem_map, List.mem_filter, hhead,
    List.mem_flatMap, Prod.mk.injEq]
  constructor
  · rintro ⟨e, ⟨he, l, hl⟩, rfl⟩
    exact ⟨l, e, he, l, hl, rfl, rfl⟩
  · rintro ⟨_, e, he, l, hl, rfl, rfl⟩
    exact ⟨e, ⟨he, l, hl⟩, rfl⟩

def move [LT G] [LT A] [DecidableLT G] [DecidableLT A] (s : Lockstep G A) :
    Move G A → Lockstep G A
  | .advance t => s.advance t
  | .bump => s.bump

end Moves

variable [LT G] [LT A]

/-- Lanes are in order and not empty, and no link in them lies before the target in force. -/
structure Ahead (s : Lockstep G A) : Prop where
  inOrder : ∀ e ∈ s.lanes.entries, InOrder e.2
  full : ∀ e ∈ s.lanes.entries, e.2 ≠ []
  ahead : ∀ t ∈ s.target, ∀ e ∈ s.lanes.entries, ∀ l ∈ e.2, ¬t.Above l

theorem Ahead.of_remaining {s s' : Lockstep G A} (h : s.Ahead) {p : Link G A → Bool}
    (hentries : s'.lanes.entries = remaining p s.lanes.entries)
    (htarget : ∀ t ∈ s'.target, t ∈ s.target ∨ ∀ l, p l = true → ¬t.Above l) : s'.Ahead := by
  have hlane : ∀ e ∈ s'.lanes.entries, ∃ links,
      (e.1, links) ∈ s.lanes.entries ∧ links.filter p = e.2 := by
    intro e he
    rw [hentries] at he
    exact (mem_remaining.mp he).1
  constructor
  case inOrder =>
    intro e he
    obtain ⟨links, hlinks, hfilter⟩ := hlane e he
    exact hfilter ▸ (h.inOrder _ hlinks).sublist List.filter_sublist
  case full =>
    intro e he
    rw [hentries] at he
    exact (mem_remaining.mp he).2
  case ahead =>
    intro t ht e he l hl
    obtain ⟨links, hlinks, hfilter⟩ := hlane e he
    rw [← hfilter, List.mem_filter] at hl
    rcases htarget t ht with hold | hpassed
    · exact h.ahead t hold _ hlinks l hl.1
    · exact hpassed l hl.2

theorem ahead_ofLists {lists : List (Nat × List (Link G A))}
    (hranks : (lists.map Prod.fst).Nodup) (horder : ∀ e ∈ lists, InOrder e.2) :
    (ofLists lists).Ahead := by
  have hlane : ∀ e ∈ (ofLists lists).lanes.entries, e ∈ lists ∧ e.2 ≠ [] := by
    intro e he
    rw [entries_ofLists hranks, mem_remaining] at he
    simpa [byRank] using he
  exact ⟨fun e he => horder e (hlane e he).1, fun e he => (hlane e he).2, nofun⟩

theorem localKey_le {lane : List (Link G A)} (h : InOrder lane) :
    lane.Pairwise fun l m => ¬m.localKey < l.localKey :=
  List.Pairwise.imp (fun {_ _} hlm hkey => hlm (.inl hkey)) h

variable [IsStrictTotalOrder G (· < ·)] [IsStrictTotalOrder A (· < ·)] [DecidableEq G]
  [DecidableEq A]

namespace Ahead

variable {s : Lockstep G A}

theorem isAtTarget_first (h : s.Ahead) {e : Nat × List (Link G A)} (he : e ∈ s.lanes.entries) :
    e.2.Pairwise fun l m => s.isAtTarget m = true → s.isAtTarget l = true := by
  simp only [isAtTarget_iff]
  apply (localKey_le (h.inOrder e he)).imp_of_mem
  rintro l m hl - hle ⟨t, ht, hm⟩
  exact ⟨t, ht, hm.of_le hle (h.ahead t ht e he l hl)⟩

theorem current (h : s.Ahead) : s.current =
    s.lanes.entries.flatMap fun e => (e.2.filter s.isAtTarget).map fun l => (e.1, l) := by
  rw [Lockstep.current]
  apply List.flatMap_congr
  intro e he
  rw [takeWhile_eq_filter (h.isAtTarget_first he)]

theorem entries_bump (h : s.Ahead) : s.bump.lanes.entries =
    remaining (fun l => decide ¬∃ t ∈ s.target, t.Meets l) s.lanes.entries := by
  by_cases htarget : s.target.isSome = true
  · have hdrop : ∀ e ∈ s.lanes.entries, (e.1, e.2.dropWhile s.isAtTarget) =
        (e.1, e.2.filter fun l => decide ¬∃ t ∈ s.target, t.Meets l) := by
      intro e he
      rw [dropWhile_eq_filter (h.isAtTarget_first he)]
      congr 1
      apply List.filter_congr
      intro l _
      rw [Bool.eq_iff_iff, Bool.not_eq_true', decide_eq_true_eq, ← isAtTarget_iff,
        Bool.not_eq_true]
    rw [Lockstep.bump, if_pos htarget, remaining, ← List.map_congr_left hdrop]
    rfl
  · have hnone : s.target = none := Option.not_isSome_iff_eq_none.mp htarget
    rw [Lockstep.bump, if_neg htarget, remaining_of_all h.full]
    simp [hnone]

theorem bump (h : s.Ahead) : s.bump.Ahead := by
  apply h.of_remaining h.entries_bump
  intro t ht
  left
  rwa [target_bump] at ht

variable [DecidableLT G] [DecidableLT A]

omit [DecidableEq A] in
theorem entries_advance (h : s.Ahead) (t : Target G A) : (s.advance t).lanes.entries =
    remaining (fun l => decide ¬t.Above l) s.lanes.entries := by
  have hdrop : ∀ e ∈ s.lanes.entries, (e.1, e.2.drop (Bisection.partitionPoint t.isAfter e.2)) =
      (e.1, e.2.filter fun l => decide ¬t.Above l) := by
    intro e he
    have hsplit : e.2.Pairwise fun l m => t.isAfter m = true → t.isAfter l = true := by
      simp only [Target.isAfter_iff]
      exact (localKey_le (h.inOrder e he)).imp fun hle habove => habove.of_le hle
    rw [drop_partitionPoint hsplit, dropWhile_eq_filter hsplit]
    simp [← Target.isAfter_iff]
  rw [remaining, ← List.map_congr_left hdrop]
  rfl

omit [DecidableEq A] in
theorem advance (h : s.Ahead) (t : Target G A) : (s.advance t).Ahead := by
  apply h.of_remaining (h.entries_advance t)
  intro t' ht'
  obtain rfl : t = t' := Option.some.inj ht'
  exact .inr fun l hl => of_decide_eq_true hl

/-- What lies ahead after some moves is what they have not passed. -/
theorem run (h : s.Ahead) (moves : List (Move G A)) : (moves.foldl move s).Ahead ∧
    (moves.foldl move s).target = Move.inForce s.target moves ∧
    (moves.foldl move s).lanes.entries =
      remaining (fun l => decide ¬Move.Passed s.target moves l) s.lanes.entries := by
  induction moves generalizing s with
  | nil =>
    refine ⟨h, rfl, ?_⟩
    rw [remaining_of_all h.full fun _ _ _ _ => decide_eq_true Move.not_passed_nil]
    rfl
  | cons step moves ih =>
    cases step with
    | advance t =>
      obtain ⟨hahead, htarget, hentries⟩ := ih (h.advance t)
      refine ⟨hahead, htarget, hentries.trans ?_⟩
      rw [h.entries_advance, remaining_remaining]
      apply remaining_congr
      intro e _ l _
      simp only [Move.passed_advance, not_or, Bool.decide_and]
      rfl
    | bump =>
      obtain ⟨hahead, htarget, hentries⟩ := ih h.bump
      rw [target_bump] at htarget hentries
      refine ⟨hahead, htarget, hentries.trans ?_⟩
      rw [h.entries_bump, remaining_remaining]
      apply remaining_congr
      intro e _ l _
      simp only [Move.passed_bump, not_or, Bool.decide_and]

end Ahead

variable [DecidableLT G] [DecidableLT A]

/-- What a walk shows after some moves through these lists. -/
structure Shows (lists : List (Nat × List (Link G A))) (moves : List (Move G A))
    (s : Lockstep G A) :
    Prop where
  current : s.current = (byRank lists).flatMap fun e =>
    (e.2.filter fun l =>
      decide (¬Move.Passed none moves l ∧ ∃ t ∈ Move.inForce none moves, t.Meets l)).map
      fun l => (e.1, l)
  ranksOnce : Ascending s.matchingRanks
  ranks : ∀ rank, rank ∈ s.matchingRanks ↔ ∃ l, (rank, l) ∈ s.current
  isEmpty : s.isEmpty = true ↔ ∀ e ∈ lists, ∀ l ∈ e.2, Move.Passed none moves l

/-- After any moves, a walk shows the links at the last target that it has not passed. -/
theorem walk_exact {lists : List (Nat × List (Link G A))} (hranks : (lists.map Prod.fst).Nodup)
    (horder : ∀ e ∈ lists, InOrder e.2) (moves : List (Move G A)) :
    Shows lists moves (moves.foldl move (ofLists lists)) := by
  obtain ⟨hahead, htarget, hentries⟩ := (ahead_ofLists hranks horder).run moves
  have hstart : (ofLists lists).target = none := rfl
  rw [hstart] at htarget hentries
  rw [entries_ofLists hranks, remaining_remaining] at hentries
  constructor
  case current =>
    have hat (l : Link G A) : (moves.foldl move (ofLists lists)).isAtTarget l =
        decide (∃ t ∈ Move.inForce none moves, t.Meets l) := by
      rw [Bool.eq_iff_iff, isAtTarget_iff, htarget, decide_eq_true_eq]
    rw [hahead.current, hentries, flatMap_remaining]
    simp only [hat, Bool.true_and, Bool.decide_and]
  case ranksOnce =>
    exact List.pairwise_map.mpr
      ((moves.foldl move (ofLists lists)).lanes.ascending.sublist List.filter_sublist)
  case ranks => exact fun rank => mem_matchingRanks
  case isEmpty =>
    rw [isEmpty, NatMap.isEmpty, List.isEmpty_iff, hentries, remaining_eq_nil]
    simp only [byRank, List.mem_mergeSort, Bool.true_and, decide_eq_false_iff_not, not_not]

def threeLanes : List (Nat × List (Link UInt64 MeshRole)) :=
  [(5, [⟨1, .owner, .ghost⟩, ⟨2, .owner, .ghost⟩, ⟨2, .overlap, .owner⟩, ⟨7, .border, .owner⟩]),
    (9, []), (2, [⟨2, .overlap, .border⟩, ⟨2, .overlap, .ghost⟩, ⟨4, .owner, .owner⟩])]

/-- Bump past a role of an identifier, go back to the whole identifier, then look behind it. -/
def turningMoves : List (Move UInt64 MeshRole) :=
  [.advance ⟨2, some .owner⟩, .bump, .advance ⟨2, none⟩, .advance ⟨1, none⟩, .bump,
    .advance ⟨2, none⟩]

theorem walk_exact_turningMoves :
    (threeLanes.map Prod.fst).Nodup ∧ (∀ e ∈ threeLanes, InOrder e.2) ∧
    Shows threeLanes turningMoves (turningMoves.foldl move (ofLists threeLanes)) ∧
    (turningMoves.foldl move (ofLists threeLanes)).current =
      [(2, ⟨2, .overlap, .border⟩), (2, ⟨2, .overlap, .ghost⟩), (5, ⟨2, .overlap, .owner⟩)] ∧
    (turningMoves.foldl move (ofLists threeLanes)).matchingRanks = [2, 5] ∧
    ¬Move.Passed none turningMoves ⟨4, .owner, .owner⟩ := by
  have hranks : (threeLanes.map Prod.fst).Nodup := by decide
  have horder : ∀ e ∈ threeLanes, InOrder e.2 := by decide
  have hshows := walk_exact hranks horder turningMoves
  exact ⟨hranks, horder, hshows, by decide +kernel, by decide +kernel, by decide⟩

end Lockstep

end HaloIndex
