namespace HaloIndex.Bisection

/-- Halve the `size` positions from `base` on, keeping the upper half when its first position is
`low`. -/
def narrow (low : Nat → Bool) (base size : Nat) : Nat :=
  if size ≤ 1 then base
  else narrow low (if low (base + size / 2) then base + size / 2 else base) (size - size / 2)
termination_by size

/-- How many elements lie before the split: every element is `before` it, or none is from there
on. -/
def partitionPoint {α : Type} (before : α → Bool) (xs : List α) : Nat :=
  let low (i : Nat) : Bool := (xs[i]?).any before
  let last := narrow low 0 xs.length
  if low last then last + 1 else last

/-- The outcome of a search: the position of a match, or the position where one would be
inserted. -/
inductive Location where
  | found (position : Nat)
  | absent (position : Nat)
  deriving DecidableEq

def locate {α : Type} (compared : α → Ordering) (xs : List α) : Location :=
  let last := narrow (fun i => (xs[i]?).any fun x => compared x != .gt) 0 xs.length
  match xs[last]?.map compared with
  | some .eq => .found last
  | some .lt => .absent (last + 1)
  | some .gt => .absent last
  | none => .absent last

def compared {α : Type} [LT α] [DecidableLT α] (a b : α) : Ordering :=
  if a < b then .lt else if b < a then .gt else .eq

theorem narrow_eq {low : Nat → Bool} {split : Nat} (h : ∀ i, low i = decide (i < split))
    (base size : Nat) (hsplit : split ≤ base + size) :
    narrow low base size = max base (split - 1) := by
  induction size using Nat.strongRecOn generalizing base with
  | ind size ih =>
    unfold narrow
    split
    · omega
    · rw [h]
      by_cases hmid : base + size / 2 < split
      · rw [if_pos (by simpa using hmid), ih _ (by omega) _ (by omega)]
        omega
      · rw [if_neg (by simpa using hmid), ih _ (by omega) _ (by omega)]

section Split

variable {α : Type} {before : α → Bool} {low high : List α}

private theorem any_getElem?_append (hlow : ∀ x ∈ low, before x = true)
    (hhigh : ∀ x ∈ high, before x = false) (i : Nat) :
    ((low ++ high)[i]?).any before = decide (i < low.length) := by
  by_cases hi : i < low.length
  · simp [List.getElem?_append_left hi, hi, hlow]
  · rw [List.getElem?_append_right (by omega)]
    cases hget : high[i - low.length]? with
    | none => simp [hi]
    | some x => simp [hi, hhigh x (List.mem_of_getElem? hget)]

theorem partitionPoint_append (hlow : ∀ x ∈ low, before x = true)
    (hhigh : ∀ x ∈ high, before x = false) :
    partitionPoint before (low ++ high) = low.length := by
  have hany := any_getElem?_append hlow hhigh
  simp only [partitionPoint, hany, narrow_eq (fun i => rfl) 0 _
    (show low.length ≤ 0 + (low ++ high).length by simp)]
  cases low <;> simp

end Split

section Comparison

variable {α : Type} {compared : α → Ordering} {low high xs : List α}

private theorem narrow_compared (hxs : xs = low ++ high)
    (hlow : ∀ x ∈ low, (compared x != .gt) = true) (hhigh : ∀ x ∈ high, compared x = .gt) :
    narrow (fun i => (xs[i]?).any fun x => compared x != .gt) 0 xs.length = low.length - 1 := by
  subst hxs
  have hnot : ∀ x ∈ high, (compared x != .gt) = false := by simpa using hhigh
  rw [narrow_eq (any_getElem?_append hlow hnot) 0 _ (by simp)]
  omega

theorem locate_match {x : α} (hlow : ∀ y ∈ low, compared y = .lt) (hx : compared x = .eq)
    (hhigh : ∀ y ∈ high, compared y = .gt) :
    locate compared (low ++ x :: high) = .found low.length := by
  have hbefore : ∀ y ∈ low ++ [x], (compared y != .gt) = true := by
    simp +contextual [or_imp, hlow, hx]
  have hnarrow := narrow_compared (List.append_cons low x high) hbefore hhigh
  rw [locate, hnarrow]
  simp [hx]

theorem locate_gap (hlow : ∀ y ∈ low, compared y = .lt) (hhigh : ∀ y ∈ high, compared y = .gt) :
    locate compared (low ++ high) = .absent low.length := by
  have hbefore : ∀ y ∈ low, (compared y != .gt) = true := by simp +contextual [hlow]
  rw [locate, narrow_compared rfl hbefore hhigh]
  rcases low.eq_nil_or_concat with rfl | ⟨rest, last, rfl⟩
  · cases high <;> simp_all
  · have hlast := hlow last (by simp)
    simp [hlast]

end Comparison

end HaloIndex.Bisection
