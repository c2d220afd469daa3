import HaloIndex.Link.Lockstep
import HaloIndex.Proofs.Order

namespace HaloIndex

variable {G A : Type}

namespace Lockstep

def Ordered [LT G] [LT A] (s : Lockstep G A) : Prop := ∀ e ∈ s.lanes.entries, Ascending e.2

theorem flatMap_filter_of_nil {α β : Type} {p : α → Bool} {f : α → List β} {xs : List α}
    (h : ∀ x ∈ xs, p x = false → f x = []) : (xs.filter p).flatMap f = xs.flatMap f := by
  induction xs with
  | nil => rfl
  | cons x xs ih =>
    have ih := ih fun y hy => h y (List.mem_cons_of_mem _ hy)
    rw [List.filter_cons]
    split
    next => rw [List.flatMap_cons, List.flatMap_cons, ih]
    next hp =>
      rw [List.flatMap_cons, h x (List.mem_cons_self ..) (by simpa using hp), ih,
        List.nil_append]

theorem filter_dropWhile {α : Type} {p q : α → Bool} (h : ∀ x, p x = true → q x = false)
    (xs : List α) :
    (xs.dropWhile p).filter q = xs.filter q := by
  have hfront : (xs.takeWhile p).filter q = [] := by
    apply List.filter_eq_nil_iff.mpr
    intro x hx
    rw [h x (List.mem_takeWhile_imp hx)]
    exact Bool.false_ne_true
  have hall := congrArg (List.filter q) (List.takeWhile_append_dropWhile (p := p) (l := xs))
  rwa [List.filter_append, hfront, List.nil_append] at hall

theorem flatMap_moveLanes (s : Lockstep G A) (move : List (Link G A) → List (Link G A))
    (view : List (Link G A) → List (Link G A)) (hview : view [] = []) :
    (s.moveLanes move).lanes.entries.flatMap (fun e => (view e.2).map fun l => (e.1, l)) =
      s.lanes.entries.flatMap fun e => (view (move e.2)).map fun l => (e.1, l) := by
  have hnil : ∀ e ∈ s.lanes.entries.map (fun e => (e.1, move e.2)), (!e.2.isEmpty) = false →
      (view e.2).map (fun l => (e.1, l)) = [] := by
    intro e _ hempty
    have he : e.2 = [] := by simpa using hempty
    rw [he, hview]
    rfl
  simp only [moveLanes, NatMap.entries_filter, NatMap.entries_map]
  rw [flatMap_filter_of_nil hnil, List.flatMap_map]

theorem Ordered.moveLanes [LT G] [LT A] {s : Lockstep G A} (h : s.Ordered)
    {move : List (Link G A) → List (Link G A)} (hmove : ∀ lane, (move lane).Sublist lane) :
    (s.moveLanes move).Ordered := by
  intro e he
  obtain ⟨he, -⟩ := List.mem_filter.mp he
  obtain ⟨e', he', rfl⟩ := List.mem_map.mp he
  exact (h e' he').sublist (hmove _)

section Lanes

variable [LT G] [LT A]

theorem localKey_not_lt [IsStrictTotalOrder G (· < ·)] [IsStrictTotalOrder A (· < ·)]
    {l m : Link G A} (h : l < m) : ¬m.localKey < l.localKey := by
  rcases h with h | ⟨h, -⟩
  · exact asymm h
  · rw [h]
    exact irrefl _

variable [DecidableEq G] [DecidableLT G] [DecidableLT A]

theorem Ordered.advance {s : Lockstep G A} (h : s.Ordered) (t : Target G A) :
    (s.advance t).Ordered :=
  h.moveLanes fun _ => List.drop_sublist ..

theorem drop_isAfter [IsStrictTotalOrder G (· < ·)] [IsStrictTotalOrder A (· < ·)]
    {lane : List (Link G A)} (h : Ascending lane) (k : Key G A) :
    lane.drop (Bisection.partitionPoint (Target.isAfter ⟨k.globalId, some k.role⟩) lane) =
      lane.filter fun l => !decide (l.localKey < k) := by
  have hsplit : lane.Pairwise fun l m =>
      decide (m.localKey < k) = true → decide (l.localKey < k) = true := by
    refine List.Pairwise.imp (fun {l m} hlm hm => ?_) h
    by_contra hl
    exact not_lt_trans (by simpa using hl) (localKey_not_lt hlm) (by simpa using hm)
  exact (drop_partitionPoint hsplit).trans (dropWhile_eq_filter hsplit)

end Lanes

variable [DecidableEq G] [DecidableEq A]

/-- The links that lie ahead with a local key, rank by rank. -/
def meets (s : Lockstep G A) (k : Key G A) : List (Nat × Link G A) :=
  s.lanes.entries.flatMap fun e =>
    (e.2.filter fun l => decide (l.localKey = k)).map fun l => (e.1, l)

theorem isAt_eq (k : Key G A) (l : Link G A) :
    Target.isAt ⟨k.globalId, some k.role⟩ l = decide (l.localKey = k) := by
  obtain ⟨globalId, role⟩ := k
  simp [Target.isAt, Link.localKey]

theorem meets_bump {s : Lockstep G A} {k k' : Key G A}
    (htarget : s.target = some ⟨k.globalId, some k.role⟩) (hne : k' ≠ k) :
    s.bump.meets k' = s.meets k' := by
  have hpast : ∀ l, s.isAtTarget l = true → decide (l.localKey = k') = false := by
    intro l hl
    rw [isAtTarget, htarget, Option.any_some, isAt_eq, decide_eq_true_eq] at hl
    simpa [hl] using hne.symm
  rw [bump, htarget, Option.isSome_some, if_pos rfl, meets,
    flatMap_moveLanes s _ _ List.filter_nil]
  simp only [filter_dropWhile hpast]
  rfl

theorem Ordered.bump [LT G] [LT A] {s : Lockstep G A} (h : s.Ordered) : s.bump.Ordered := by
  unfold Lockstep.bump
  split
  · exact h.moveLanes fun _ => List.dropWhile_sublist _
  · exact h

section Lanes

variable [LT G] [LT A] [DecidableLT G] [DecidableLT A] [IsStrictTotalOrder G (· < ·)]
  [IsStrictTotalOrder A (· < ·)] {lane : List (Link G A)}

theorem takeWhile_isAt (h : Ascending lane) (k : Key G A) :
    (lane.filter fun l => !decide (l.localKey < k)).takeWhile
        (Target.isAt ⟨k.globalId, some k.role⟩) =
      lane.filter fun l => decide (l.localKey = k) := by
  have hsplit : (lane.filter fun l => !decide (l.localKey < k)).Pairwise fun l m =>
      decide (m.localKey = k) = true → decide (l.localKey = k) = true := by
    refine List.Pairwise.imp_of_mem (fun {l m} hl _ hlm hm => ?_) (h.sublist List.filter_sublist)
    have hle := localKey_not_lt hlm
    rw [show m.localKey = k by simpa using hm] at hle
    have hge : ¬l.localKey < k := by simpa using (List.mem_filter.mp hl).2
    simpa using Std.Trichotomous.trichotomous _ _ hge hle
  rw [funext (isAt_eq k), takeWhile_eq_filter hsplit, List.filter_filter]
  apply List.filter_congr
  intro l _
  by_cases hk : l.localKey = k
  · simp [hk, irrefl k]
  · simp [hk]

variable {s : Lockstep G A}

/-- At a key, the walk sees what lies ahead with this key. -/
theorem current_advance (h : s.Ordered) (k : Key G A) :
    (s.advance ⟨k.globalId, some k.role⟩).current = s.meets k := by
  have hview : (s.advance ⟨k.globalId, some k.role⟩).current =
      (s.moveLanes fun lane =>
        lane.drop (Bisection.partitionPoint
          (Target.isAfter ⟨k.globalId, some k.role⟩) lane)).lanes.entries.flatMap
          fun e => (e.2.takeWhile (Target.isAt ⟨k.globalId, some k.role⟩)).map fun l =>
            (e.1, l) := rfl
  rw [hview, flatMap_moveLanes s _ (List.takeWhile _) List.takeWhile_nil]
  apply List.flatMap_congr
  intro e he
  rw [drop_isAfter (h e he), takeWhile_isAt (h e he)]

/-- Moving on to a key does not touch what lies ahead with this key or a greater one. -/
theorem meets_advance (h : s.Ordered) {k k' : Key G A} (hle : ¬k' < k) :
    (s.advance ⟨k.globalId, some k.role⟩).meets k' = s.meets k' := by
  have hview : (s.advance ⟨k.globalId, some k.role⟩).meets k' =
      (s.moveLanes fun lane =>
        lane.drop (Bisection.partitionPoint
          (Target.isAfter ⟨k.globalId, some k.role⟩) lane)).meets k' := rfl
  rw [hview, meets, flatMap_moveLanes s _ _ List.filter_nil]
  apply List.flatMap_congr
  intro e he
  rw [drop_isAfter (h e he), List.filter_filter]
  refine congrArg (List.map _) (List.filter_congr fun l _ => ?_)
  by_cases hl : l.localKey = k'
  · simp [hl, hle]
  · simp [hl]

end Lanes

end Lockstep

end HaloIndex
