import HaloIndex.Proofs.Sync.Discovery
import HaloIndex.Proofs.Transport.Round

namespace HaloIndex

namespace Exchange

open Traffic Event

/-- A round in which a rank stops hearing its peers after some of them. -/
def roundUpTo (probing : Bool) (tag : Tag) (payload message : Nat → List UInt8)
    (peers heard : List Nat) :
    List Event :=
  posts tag payload peers ++ (takings probing tag message heard ++ waits peers)

section Channels

variable {t : Traffic} {tag : Tag} {peers : Nat → List Nat}

/-- What is taken from a channel to which this payload has just been posted. -/
def oldest (t : Traffic) (c : Channel) (payload : List UInt8) : List UInt8 :=
  (t.queue c).headD payload

theorem head?_append_singleton {α : Type} (xs : List α) (x : α) :
    (xs ++ [x]).head? = some (xs.headD x) := by
  cases xs with
  | nil => rfl
  | cons => rfl

/-- Ranks whose neighbour relation is symmetric can go through a round together, whatever was
queued before, even if some of them stop hearing early. -/
theorem admits_backlog (h : Neighbourly t.size peers) (probing : Bool)
    (payload : Nat → Nat → List UInt8) {heard : Nat → List Nat}
    (hheard : ∀ rank < t.size, heard rank <+: peers rank) :
    ∃ u, t.Admits (fun rank => roundUpTo probing tag (payload rank)
      (fun peer => oldest t ⟨peer, rank, tag⟩ (payload peer rank)) (peers rank)
      (heard rank)) u := by
  obtain ⟨u, hu⟩ := admits_of_offers (t := t) fun rank hrank =>
    (offers_posts (h.lt rank hrank) : t.Offers rank (posts tag (payload rank) (peers rank)))
  have hhead : ∀ rank < t.size, ∀ peer ∈ peers rank, (u.queue ⟨peer, rank, tag⟩).head? =
      some (oldest t ⟨peer, rank, tag⟩ (payload peer rank)) := by
    intro rank hrank peer hpeer
    have hlt := h.lt rank hrank peer hpeer
    have hqueue := hu.conserve (c := ⟨peer, rank, tag⟩) hlt hrank
    rw [taken_posts, List.nil_append, posted_posts _ _ _ (h.nodup peer hlt),
      if_pos ⟨h.symm rank hrank peer hpeer, rfl⟩] at hqueue
    rw [← hqueue, head?_append_singleton]
    rfl
  have htakes : ∀ rank < u.size, u.Offers rank
      (takings probing tag (fun peer => oldest t ⟨peer, rank, tag⟩ (payload peer rank))
        (heard rank) ++
        waits (peers rank)) := by
    rw [hu.size_eq]
    intro rank hrank
    have hsub := hheard rank hrank
    apply Offers.append
    · apply offers_takings probing ((h.nodup rank hrank).sublist hsub.sublist)
      exact fun peer hpeer => hhead rank hrank peer (hsub.subset hpeer)
    · intro _ _
      exact offers_waits _
    · rwa [hu.size_eq]
  obtain ⟨w, hw⟩ := admits_of_offers htakes
  exact ⟨w, hu.trans hw⟩

theorem posted_roundUpTo (c : Channel) (probing : Bool) (payload message : Nat → List UInt8)
    {peers : List Nat} (h : peers.Nodup) (heard : List Nat) :
    posted c (roundUpTo probing tag payload message peers heard) =
      if c.dest ∈ peers ∧ tag = c.tag then [payload c.dest] else [] := by
  rw [roundUpTo, posted_append, posted_append, posted_takings, posted_waits,
    posted_posts _ _ _ h]
  exact List.append_nil _

theorem taken_roundUpTo (c : Channel) (probing : Bool) (payload message : Nat → List UInt8)
    (peers : List Nat) {heard : List Nat} (h : heard.Nodup) :
    taken c (roundUpTo probing tag payload message peers heard) =
      if c.source ∈ heard ∧ tag = c.tag then [message c.source] else [] := by
  rw [roundUpTo, taken_append, taken_append, taken_posts, taken_waits, taken_takings _ _ _ _ h]
  exact List.append_nil _

/-- Who hears a peer takes one message and is sent another, so that as many stay behind as
before. -/
theorem queue_of_admits (h : Neighbourly t.size peers) {probing : Bool}
    {payload : Nat → Nat → List UInt8} {heard : Nat → List Nat} {u : Traffic}
    (hadmits : t.Admits (fun rank => roundUpTo probing tag (payload rank)
      (fun peer => oldest t ⟨peer, rank, tag⟩ (payload peer rank)) (peers rank) (heard rank)) u)
    {rank peer : Nat} (hrank : rank < t.size) (hheard : heard rank <+: peers rank)
    (hpeer : peer ∈ heard rank) : u.queue ⟨peer, rank, tag⟩ =
      (t.queue ⟨peer, rank, tag⟩ ++ [payload peer rank]).tail := by
  have hmem := hheard.subset hpeer
  have hlt := h.lt rank hrank peer hmem
  have hnodup := (h.nodup rank hrank).sublist hheard.sublist
  have hqueue := hadmits.conserve (c := ⟨peer, rank, tag⟩) hlt hrank
  rw [posted_roundUpTo _ _ _ _ (h.nodup peer hlt), if_pos ⟨h.symm rank hrank peer hmem, rfl⟩,
    taken_roundUpTo _ _ _ _ _ hnodup, if_pos ⟨hpeer, rfl⟩] at hqueue
  rw [hqueue]
  rfl

end Channels

section Paths

variable {σ : Type} {tag : Tag} {probing : Bool} {message : Nat → List UInt8}
  {take : Nat → σ → Program (Except Fault Unit × σ)} {act : Nat → σ → Except Fault Unit × σ}

theorem exists_path_takeAll {peers : List Nat} (h : ∀ peer ∈ peers, ∀ state,
      (take peer state).Path (taking probing tag peer (message peer)) (.done (act peer state)))
    (state : σ) : ∃ heard, heard <+: peers ∧
      (takeAll take peers state).Path (takings probing tag message heard)
        (.done (Discovery.forEach act peers state)) ∧
      ((Discovery.forEach act peers state).1 = .ok () → heard = peers) := by
  induction peers generalizing state with
  | nil => exact ⟨[], List.prefix_rfl, .refl _, fun _ => rfl⟩
  | cons peer peers ih =>
    have hfirst := h peer (List.mem_cons_self ..) state
    rw [Discovery.forEach]
    generalize act peer state = first at hfirst
    obtain ⟨outcome, next⟩ := first
    cases outcome with
    | error f =>
      refine ⟨[peer], ⟨peers, rfl⟩, hfirst.andThen (.refl _), fun hok => ?_⟩
      cases hok
    | ok =>
      obtain ⟨heard, hstart, hrest, hall⟩ :=
        ih (fun p hp => h p (List.mem_cons_of_mem _ hp)) next
      exact ⟨peer :: heard, (List.prefix_cons_inj peer).mpr hstart, hfirst.andThen hrest,
        fun hok => congrArg (peer :: ·) (hall hok)⟩

theorem exists_path_round (payload : Nat → List UInt8) {peers : List Nat}
    (h : ∀ peer ∈ peers, ∀ state,
      (take peer state).Path (taking probing tag peer (message peer)) (.done (act peer state)))
    (state : σ) : ∃ heard, heard <+: peers ∧
      (round tag (peers.map fun peer => (peer, .ok (payload peer))) take state).Path
        (roundUpTo probing tag payload message peers heard)
        (.done (Discovery.forEach act peers state)) ∧
      ((Discovery.forEach act peers state).1 = .ok () → heard = peers) := by
  obtain ⟨heard, hstart, htakes, hall⟩ := exists_path_takeAll h state
  exact ⟨heard, hstart, path_round tag payload htakes, hall⟩

end Paths

end Exchange

end HaloIndex
