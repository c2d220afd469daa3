import HaloIndex.Proofs.Transport.Concert
import HaloIndex.Proofs.Rebuild.Matching
import HaloIndex.Rebuild.Exchange

namespace HaloIndex

/-- The rank that lies a number of places to the left in a ring. -/
def hop (size k rank : Nat) : Nat := (rank + size - k) % size

namespace Station

open Traffic Event

variable {t : Traffic} {registry : Nat → Registry} {tag : Tag} {m : Nat → List UInt8}

abbrev among (size : Nat) (registry : Nat → Registry) (rank : Nat) : Station :=
  ⟨rank, size, registry rank⟩

theorem hop_lt {size rank : Nat} (h : rank < size) (k : Nat) : hop size k rank < size :=
  Nat.mod_lt _ (Nat.zero_lt_of_lt h)

theorem right_lt {size rank : Nat} (h : rank < size) :
    (among size registry rank).right < size := Nat.mod_lt _ (Nat.zero_lt_of_lt h)

theorem hop_one {size rank : Nat} (h : rank < size) :
    hop size 1 rank = if rank = 0 then size - 1 else rank - 1 := by
  rw [hop]
  split
  next h => rw [h, Nat.zero_add, Nat.mod_eq_of_lt (by omega)]
  next h =>
    rw [show rank + size - 1 = rank - 1 + size by omega, Nat.add_mod_right,
      Nat.mod_eq_of_lt (by omega)]

theorem right_eq_iff {size source dest : Nat} (hsource : source < size) (hdest : dest < size) :
    (among size registry source).right = dest ↔ hop size 1 dest = source := by
  have hright : (source + 1) % size = if source + 1 = size then 0 else source + 1 := by
    split
    next h => rw [h, Nat.mod_self]
    next h => exact Nat.mod_eq_of_lt (by omega)
  rw [hop_one hdest]
  simp only [right, hright]
  split <;> split <;> omega

theorem left_even {size rank : Nat} (h : rank < size) (hodd : ¬rank % 2 = 0) :
    hop size 1 rank % 2 = 0 := by
  rw [hop_one h]
  split <;> omega

/-- What a rank does in a round before it depends on others, what an odd rank does as soon as its
even neighbour has sent, and what is left to even ranks. -/
def opening (s : Station) (tag : Tag) (m : List UInt8) : List Event :=
  if s.rank % 2 = 0 then [sent s.right tag m, waited s.right] else []

def relay (s : Station) (tag : Tag) (m incoming : List UInt8) : List Event :=
  if s.rank % 2 = 0 then []
  else [received s.left tag incoming, sent s.right tag m, waited s.right]

def closing (s : Station) (tag : Tag) (incoming : List UInt8) : List Event :=
  if s.rank % 2 = 0 then [received s.left tag incoming] else []

def passing (s : Station) (tag : Tag) (m incoming : List UInt8) : List Event :=
  s.opening tag m ++ s.relay tag m incoming ++ s.closing tag incoming

theorem path_passOn (s : Station) (m incoming : List UInt8) :
    (s.passOn tag m).run.Path (s.passing tag m incoming) (.done (.ok incoming)) := by
  rw [passOn, passing, opening, relay, closing]
  by_cases h : s.rank % 2 = 0
  · simp only [if_pos h]
    exact .ask (.ask (.ask (.refl _)))
  · simp only [if_neg h]
    exact .ask (.ask (.ask (.refl _)))

theorem posted_before_closing (s : Station) (c : Channel) (m incoming : List UInt8) :
    posted c (s.opening tag m ++ s.relay tag m incoming) =
      if s.right = c.dest ∧ tag = c.tag then [m] else [] := by
  rw [opening, relay]
  split <;> simp

theorem taken_passing (s : Station) (c : Channel) (m incoming : List UInt8) :
    taken c (s.passing tag m incoming) =
      if s.left = c.source ∧ tag = c.tag then [incoming] else [] := by
  rw [passing, opening, relay, closing]
  split <;> simp

section Round

variable {u : Traffic}

theorem offers_opening {rank : Nat} (h : rank < t.size) :
    t.Offers rank ((among t.size registry rank).opening tag (m rank)) := by
  rw [opening]
  split
  · exact .sent (right_lt h) (.waited trivial)
  · trivial

theorem offers_relay (hclear : t.Clear tag)
    (hu : t.Admits (fun rank => (among t.size registry rank).opening tag (m rank)) u)
    {rank : Nat} (h : rank < t.size) : u.Offers rank
      ((among t.size registry rank).relay tag (m rank) (m (hop t.size 1 rank))) := by
  rw [relay]
  split
  · trivial
  next hodd =>
    have hleft := hop_lt h 1
    have hright : (among t.size registry (hop t.size 1 rank)).right = rank :=
      (right_eq_iff hleft h).mpr rfl
    have hqueue := hu.conserve (c := ⟨hop t.size 1 rank, rank, tag⟩) hleft h
    simp only [hclear _ hleft _ h, opening, if_pos (left_even h hodd), if_neg hodd, posted_sent,
      hright] at hqueue
    refine .received ?_ (.sent ?_ (.waited trivial))
    · change (u.queue ⟨hop t.size 1 rank, rank, tag⟩).head? = _
      rw [show u.queue _ = [m (hop t.size 1 rank)] by simpa using hqueue.symm]
      rfl
    · exact hu.size_eq.symm ▸ right_lt h

theorem offers_closing (hclear : t.Clear tag)
    (hu : t.Admits (fun rank => (among t.size registry rank).opening tag (m rank) ++
      (among t.size registry rank).relay tag (m rank) (m (hop t.size 1 rank))) u) {rank : Nat}
    (h : rank < t.size) : u.Offers rank
      ((among t.size registry rank).closing tag (m (hop t.size 1 rank))) := by
  rw [closing]
  split
  next heven =>
    have hleft := hop_lt h 1
    have hright : (among t.size registry (hop t.size 1 rank)).right = rank :=
      (right_eq_iff hleft h).mpr rfl
    have hqueue := hu.conserve (c := ⟨hop t.size 1 rank, rank, tag⟩) hleft h
    rw [hclear _ hleft _ h, posted_before_closing, opening, relay, if_pos heven,
      if_pos heven] at hqueue
    refine .received ?_ trivial
    change (u.queue ⟨hop t.size 1 rank, rank, tag⟩).head? = _
    rw [if_pos ⟨hright, rfl⟩] at hqueue
    rw [show u.queue _ = [m (hop t.size 1 rank)] by simpa using hqueue.symm]
    rfl
  · trivial

theorem posted_passing (s : Station) (c : Channel) (m incoming : List UInt8) :
    posted c (s.passing tag m incoming) =
      if s.right = c.dest ∧ tag = c.tag then [m] else [] := by
  rw [passing, posted_append, posted_before_closing, closing]
  split <;> split <;> simp

theorem passing_balanced {c : Channel} (hsource : c.source < t.size) (hdest : c.dest < t.size) :
    posted c ((among t.size registry c.source).passing tag (m c.source)
      (m (hop t.size 1 c.source))) =
      taken c ((among t.size registry c.dest).passing tag (m c.dest)
        (m (hop t.size 1 c.dest))) := by
  rw [posted_passing, taken_passing]
  simp only [right_eq_iff hsource hdest]
  change _ = if hop t.size 1 c.dest = c.source ∧ tag = c.tag then _ else _
  split
  next h => rw [h.1]
  next => rfl

variable (registry m)

theorem passOn_concludes (hclear : t.Clear tag) :
    Concludes t (fun rank => ((among t.size registry rank).passOn tag (m rank)).run)
      (fun rank => (among t.size registry rank).passing tag (m rank) (m (hop t.size 1 rank)))
      fun rank => .ok (m (hop t.size 1 rank)) := by
  refine ⟨fun rank _ => path_passOn _ _ _, ?_⟩
  have hopening : ∀ rank < t.size,
      t.Offers rank ((among t.size registry rank).opening tag (m rank)) :=
    fun rank hrank => offers_opening hrank
  -- First the even ranks send, then the odd ones take and send, then the even ones take.
  obtain ⟨u, hu⟩ := admits_of_offers hopening
  obtain ⟨w, hw⟩ := admits_of_offers (t := u) fun rank hrank =>
    offers_relay hclear hu (hu.size_eq ▸ hrank)
  have huw := hu.trans hw
  obtain ⟨x, hx⟩ := admits_of_offers (t := w) fun rank hrank =>
    offers_closing hclear huw (huw.size_eq ▸ hrank)
  have hall := huw.trans hx
  have hsame : x = t := hall.eq_of_balanced fun c hdest => by
    refine ⟨fun hsource => passing_balanced hsource hdest, ?_⟩
    by_cases hc : hop t.size 1 c.dest = c.source ∧ tag = c.tag
    · obtain ⟨source, dest, _⟩ := c
      obtain ⟨hsource, rfl⟩ := hc
      have hlt : source < t.size :=
        (show hop t.size 1 dest = source from hsource) ▸ hop_lt hdest 1
      exact .inl (hclear source hlt dest hdest)
    · exact .inr ((taken_passing ..).trans (if_neg hc))
  exact hsame ▸ hall

end Round

end Station

namespace Publication

open Station

theorem hop_zero {size rank : Nat} (h : rank < size) : hop size 0 rank = rank := by
  rw [hop, Nat.sub_zero, Nat.add_mod_right, Nat.mod_eq_of_lt h]

theorem hop_succ {size rank k : Nat} (h : rank < size) (hk : k < size) :
    hop size k (hop size 1 rank) = hop size (k + 1) rank := by
  rw [hop_one h, hop, hop]
  split
  · rw [show size - 1 + size - k = rank + size - (k + 1) + size by omega, Nat.add_mod_right]
  · rw [show rank - 1 + size - k = rank + size - (k + 1) by omega]

variable {G A : Type} [Scalar G] [Role A] [LawfulScalar G] [LawfulRole A] [LT G] [LT A]
  [DecidableEq G] [DecidableEq A] [DecidableLT G] [DecidableLT A]

variable {t : Traffic} {registry : Nat → Registry} {tag : Tag}
  {published : Nat → Publication G A} {message : Nat → List UInt8}

/-- From round `k` on, every rank passes on the message of the rank that lies `k` to its left. -/
theorem circulate_concludes (hclear : t.Clear tag)
    (hspeaks : ∀ rank < t.size, (registry rank).SpeaksFully G)
    (hpack : ∀ rank < t.size, (published rank).encode (registry rank) = .ok (message rank))
    (rounds k : Nat) (hk : k + rounds ≤ t.size) (links : Nat → NatMap (Links G A)) :
    ∃ es, Concludes t (fun rank => (circulate (among t.size registry rank) tag (published rank)
        ((List.range' (k + 1) rounds).map (hop t.size · rank)) (message (hop t.size k rank))
        (links rank)).run) es
      fun rank => .ok ((published rank).hear published
        ((List.range' (k + 1) rounds).map (hop t.size · rank)) (links rank)) := by
  induction rounds generalizing k links with
  | zero => exact ⟨_, .of_done fun rank _ => rfl⟩
  | succ rounds ih =>
    obtain ⟨es, hrest⟩ := ih (k + 1) (by omega) fun rank =>
      enter (links rank) (hop t.size (k + 1) rank)
        ((published rank).found (published (hop t.size (k + 1) rank)) false)
    have hround := passOn_concludes registry (fun rank => message (hop t.size k rank)) hclear
    refine ⟨_, hround.andThen (hrest.congr (fun rank hrank => ?_) fun _ _ => rfl)⟩
    have hfrom := hop_lt hrank (k + 1)
    rw [hop_succ hrank (by omega), linksFrom_encode (hspeaks rank hrank) (hpack _ hfrom)]
    rfl

end Publication

end HaloIndex
