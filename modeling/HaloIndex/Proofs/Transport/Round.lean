import HaloIndex.Proofs.Transport.Concert
import HaloIndex.Transport.Exchange

namespace HaloIndex

/-- Every rank lists its neighbours once, and each of them lists it. -/
structure Neighbourly (size : Nat) (peers : Nat → List Nat) : Prop where
  nodup : ∀ rank < size, (peers rank).Nodup
  lt : ∀ rank < size, ∀ peer ∈ peers rank, peer < size
  symm : ∀ rank < size, ∀ peer ∈ peers rank, rank ∈ peers peer

theorem Neighbourly.congr {size : Nat} {peers peers' : Nat → List Nat}
    (h : Neighbourly size peers) (heq : ∀ rank < size, peers' rank = peers rank) :
    Neighbourly size peers' := by
  constructor
  case nodup => exact fun rank hrank => heq rank hrank ▸ h.nodup rank hrank
  case lt => exact fun rank hrank => heq rank hrank ▸ h.lt rank hrank
  case symm =>
    intro rank hrank peer hpeer
    rw [heq rank hrank] at hpeer
    rw [heq peer (h.lt rank hrank peer hpeer)]
    exact h.symm rank hrank peer hpeer

namespace Exchange

open Traffic Event

def posts (tag : Tag) (payload : Nat → List UInt8) (peers : List Nat) : List Event :=
  peers.map fun peer => sent peer tag (payload peer)

/-- Take a message, after its length was asked for if this is wanted. -/
def taking (probing : Bool) (tag : Tag) (peer : Nat) (payload : List UInt8) : List Event :=
  (if probing then [seen peer tag payload] else []) ++ [received peer tag payload]

def takings (probing : Bool) (tag : Tag) (payload : Nat → List UInt8) (peers : List Nat) :
    List Event :=
  peers.flatMap fun peer => taking probing tag peer (payload peer)

def waits (peers : List Nat) : List Event := peers.map waited

section Channels

variable (c : Channel) (tag : Tag) (payload : Nat → List UInt8)

theorem posted_posts {peers : List Nat} (h : peers.Nodup) : posted c (posts tag payload peers) =
    if c.dest ∈ peers ∧ tag = c.tag then [payload c.dest] else [] := by
  induction peers with
  | nil => rfl
  | cons peer peers ih =>
    obtain ⟨hpeer, hpeers⟩ := List.nodup_cons.mp h
    rw [posts, List.map_cons, posted_sent]
    change _ ++ posted c (posts tag payload peers) = _
    rw [ih hpeers]
    by_cases hc : peer = c.dest
    · subst hc
      simp [hpeer]
    · simp [hc, Ne.symm hc]

theorem taken_posts (peers : List Nat) : taken c (posts tag payload peers) = [] := by
  induction peers with
  | nil => rfl
  | cons peer peers ih => exact ih

theorem posted_takings (probing : Bool) (peers : List Nat) :
    posted c (takings probing tag payload peers) = [] := by
  induction peers with
  | nil => rfl
  | cons peer peers ih =>
    rw [takings, List.flatMap_cons, posted_append, taking]
    cases probing <;> exact ih

theorem taken_takings (probing : Bool) {peers : List Nat} (h : peers.Nodup) :
    taken c (takings probing tag payload peers) =
      if c.source ∈ peers ∧ tag = c.tag then [payload c.source] else [] := by
  induction peers with
  | nil => rfl
  | cons peer peers ih =>
    obtain ⟨hpeer, hpeers⟩ := List.nodup_cons.mp h
    have hfirst : taken c (taking probing tag peer (payload peer)) =
        if peer = c.source ∧ tag = c.tag then [payload peer] else [] := by
      cases probing <;> simp [taking]
    rw [takings, List.flatMap_cons, taken_append, hfirst]
    change _ ++ taken c (takings probing tag payload peers) = _
    rw [ih hpeers]
    by_cases hc : peer = c.source
    · subst hc
      simp [hpeer]
    · simp [hc, Ne.symm hc]

theorem posted_waits (peers : List Nat) : posted c (waits peers) = [] := by
  induction peers with
  | nil => rfl
  | cons peer peers ih => exact ih

theorem taken_waits (peers : List Nat) : taken c (waits peers) = [] := by
  induction peers with
  | nil => rfl
  | cons peer peers ih => exact ih

end Channels

section Offers

variable {t : Traffic} {rank : Nat} {tag : Tag} {payload : Nat → List UInt8} {peers : List Nat}

theorem offers_posts (h : ∀ peer ∈ peers, peer < t.size) :
    t.Offers rank (posts tag payload peers) := by
  induction peers generalizing t with
  | nil => trivial
  | cons peer peers ih =>
    exact .sent (h peer (List.mem_cons_self ..)) (ih fun p hp => h p (List.mem_cons_of_mem _ hp))

theorem offers_takings (probing : Bool) (hnodup : peers.Nodup)
    (h : ∀ peer ∈ peers, (t.queue ⟨peer, rank, tag⟩).head? = some (payload peer)) :
    t.Offers rank (takings probing tag payload peers) := by
  induction peers generalizing t with
  | nil => trivial
  | cons peer peers ih =>
    obtain ⟨hpeer, hpeers⟩ := List.nodup_cons.mp hnodup
    have hhead := h peer (List.mem_cons_self ..)
    have hrest : (t.pop ⟨peer, rank, tag⟩).Offers rank (takings probing tag payload peers) := by
      apply ih hpeers
      intro p hp
      have hne : (⟨p, rank, tag⟩ : Channel) ≠ ⟨peer, rank, tag⟩ := by
        rintro he
        cases he
        exact hpeer hp
      rw [queue_pop_of_ne t hne]
      exact h p (List.mem_cons_of_mem _ hp)
    cases probing with
    | false => exact .received hhead hrest
    | true => exact .seen hhead (.received hhead hrest)

theorem offers_waits (peers : List Nat) : t.Offers rank (waits peers) := by
  induction peers with
  | nil => trivial
  | cons peer peers ih => exact .waited ih

end Offers

section Paths

variable {σ : Type} {tag : Tag}

theorem path_postAll (tag : Tag) (payload : Nat → List UInt8) (peers : List Nat) :
    (postAll tag (peers.map fun peer => (peer, .ok (payload peer)))).Path
    (posts tag payload peers)
      (.done (peers.map Handle.mk, .ok ())) := by
  induction peers with
  | nil => exact .refl _
  | cons peer peers ih =>
    have hrest := ih.andThen (f := fun r => pure (Handle.mk peer :: r.1, r.2)) (.refl _)
    rw [List.append_nil] at hrest
    exact .ask hrest

theorem path_waitAll (peers : List Nat) (outcome : Except Fault Unit) :
    (waitAll (peers.map Handle.mk) outcome).Path (waits peers) (.done outcome) := by
  induction peers with
  | nil => exact .refl _
  | cons peer peers ih =>
    apply Program.Path.ask
    cases outcome with
    | ok => exact ih
    | error f => exact ih

/-- One peer after the other is heard, and an invariant of what is known is kept. -/
theorem path_takeAll {probing : Bool} {payload : Nat → List UInt8}
    {take : Nat → σ → Program (Except Fault Unit × σ)} {act : Nat → σ → σ} {inv : σ → Prop}
    {peers : List Nat} (h : ∀ peer ∈ peers, ∀ state, inv state → inv (act peer state) ∧
      (take peer state).Path (taking probing tag peer (payload peer))
      (.done (.ok (), act peer state)))
    {state : σ} (hstate : inv state) :
    (takeAll take peers state).Path (takings probing tag payload peers)
      (.done (.ok (), peers.foldl (fun state peer => act peer state) state)) := by
  induction peers generalizing state with
  | nil => exact .refl _
  | cons peer peers ih =>
    obtain ⟨hkeep, hpath⟩ := h peer (List.mem_cons_self ..) state hstate
    exact hpath.andThen (ih (fun p hp => h p (List.mem_cons_of_mem _ hp)) hkeep)

theorem path_round (tag : Tag) (payload : Nat → List UInt8) {peers : List Nat}
    {take : Nat → σ → Program (Except Fault Unit × σ)} {state : σ} {es : List Event}
    {r : Except Fault Unit × σ} (h : (takeAll take peers state).Path es (.done r)) :
    (round tag (peers.map fun peer => (peer, .ok (payload peer))) take state).Path
      (posts tag payload peers ++ (es ++ waits peers)) (.done r) := by
  have hwaits :=
    (path_waitAll peers r.1).andThen (f := fun outcome => pure (outcome, r.2)) (.refl _)
  rw [List.append_nil] at hwaits
  refine (path_postAll tag payload peers).andThen ?_
  have hmap : (peers.map fun peer => (peer, (.ok (payload peer) : Except Fault _))).map
      (·.1) = peers := by
    rw [List.map_map]
    exact List.map_id _
  simp only [hmap]
  exact h.andThen hwaits

end Paths

def rounds (probing : Bool) (tag : Tag) (payload : Nat → Nat → List UInt8)
    (peers : Nat → List Nat) (rank : Nat) : List Event :=
  posts tag (payload rank) (peers rank) ++
    takings probing tag (fun peer => payload peer rank) (peers rank) ++ waits (peers rank)

section Round

variable {σ : Type} {t : Traffic} {tag : Tag} {peers : Nat → List Nat}

theorem admits_rounds (h : Neighbourly t.size peers) (hclear : t.Clear tag) (probing : Bool)
    (payload : Nat → Nat → List UInt8) : t.Admits (rounds probing tag payload peers) t := by
  let gives (rank : Nat) := posts tag (payload rank) (peers rank)
  let takes (rank : Nat) :=
    takings probing tag (fun peer => payload peer rank) (peers rank) ++ waits (peers rank)
  have htaken (c : Channel) (hdest : c.dest < t.size) : taken c (takes c.dest) =
      if c.source ∈ peers c.dest ∧ tag = c.tag then [payload c.source c.dest] else [] := by
    rw [taken_append, taken_waits, List.append_nil, taken_takings _ _ _ _ (h.nodup _ hdest)]
  have hcrosses : t.Crosses tag gives takes := by
    constructor
    case clear => exact hclear
    case offers =>
      intro rank hrank
      exact offers_posts (h.lt rank hrank)
    case onlyGives =>
      intro rank c
      exact taken_posts ..
    case onlyTakes =>
      intro rank c
      rw [posted_append, posted_takings, posted_waits]
      rfl
    case balanced =>
      intro c hsource hdest
      rw [htaken c hdest, posted_posts _ _ _ (h.nodup _ hsource)]
      have hiff : c.dest ∈ peers c.source ↔ c.source ∈ peers c.dest :=
        ⟨h.symm _ hsource _, h.symm _ hdest _⟩
      simp only [hiff]
    case onChannel =>
      intro c hdest hno
      rw [htaken c hdest, if_neg]
      rintro ⟨hpeer, htag⟩
      exact hno ⟨h.lt _ hdest _ hpeer, htag.symm⟩
    case ready =>
      intro rank hrank u hsize hqueue
      apply Offers.append
      · apply offers_takings probing (h.nodup rank hrank)
        intro peer hpeer
        have hlt := h.lt rank hrank peer hpeer
        rw [hqueue peer hlt, posted_posts _ _ _ (h.nodup peer hlt),
          if_pos ⟨h.symm rank hrank peer hpeer, rfl⟩]
        rfl
      · intro _ _
        exact offers_waits _
      · rwa [hsize]
  apply hcrosses.admits.congr
  intro rank _
  rw [rounds, List.append_assoc]

/-- Ranks whose neighbour relation is symmetric go through a round together. -/
theorem round_concludes (h : Neighbourly t.size peers) (hclear : t.Clear tag) {probing : Bool}
    {payload : Nat → Nat → List UInt8} {take : Nat → Nat → σ → Program (Except Fault Unit × σ)}
    {act : Nat → Nat → σ → σ} {inv : Nat → σ → Prop}
    (htake : ∀ rank < t.size, ∀ peer ∈ peers rank, ∀ state, inv rank state →
      inv rank (act rank peer state) ∧ (take rank peer state).Path
        (taking probing tag peer (payload peer rank)) (.done (.ok (), act rank peer state)))
    (state : Nat → σ) (hstate : ∀ rank < t.size, inv rank (state rank)) :
    Concludes t (fun rank =>
      round tag ((peers rank).map fun peer => (peer, .ok (payload rank peer)))
        (take rank) (state rank))
      (rounds probing tag payload peers)
      fun rank => (.ok (),
        (peers rank).foldl (fun state peer => act rank peer state) (state rank)) := by
  refine ⟨fun rank hrank => ?_, admits_rounds h hclear probing payload⟩
  rw [rounds, List.append_assoc]
  exact path_round tag (payload rank) (path_takeAll (htake rank hrank) (hstate rank hrank))

end Round

end Exchange

end HaloIndex
