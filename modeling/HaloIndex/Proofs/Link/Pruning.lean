import HaloIndex.Proofs.IndexSet.Resize
import HaloIndex.Proofs.Link.Table

namespace HaloIndex

variable {G A : Type}

namespace Links

theorem filter_filter (sends receives : Link G A → Bool) (links : Links G A) :
    (links.filter sends receives).filter sends receives = links.filter sends receives := by
  cases links <;> simp [filter, List.filter_filter]

theorem isShared_filter (sends receives : Link G A → Bool) (links : Links G A) :
    (links.filter sends receives).isShared = links.isShared := by
  cases links <;> rfl

theorem receive_filter {sends receives : Link G A → Bool} {links : Links G A}
    (h : links.isShared = true → sends = receives) :
    (links.filter sends receives).receive = links.receive.filter receives := by
  cases links with
  | shared links => exact congrArg (links.filter ·) (h rfl)
  | split => rfl

variable [DecidableEq G] [DecidableEq A]

/-- The links whose key is gone from the set of their direction; those of a shared list occur
once. -/
def lost (source dest : IndexSet G A) : Links G A → List (Link G A)
  | shared links => links.filter fun l => decide (l.localKey ∉ source.keys)
  | split send receive =>
    send.filter (fun l => decide (l.localKey ∉ source.keys)) ++
      receive.filter fun l => decide (l.localKey ∉ dest.keys)

theorem length_filter_add_lost (source dest : IndexSet G A) (links : Links G A) :
    (links.filter (fun l => decide (l.localKey ∈ source.keys))
      (fun l => decide (l.localKey ∈ dest.keys))).toList.length +
    (links.lost source dest).length =
      links.toList.length := by
  have hone (set : IndexSet G A) (links : List (Link G A)) :
      (links.filter fun l => decide (l.localKey ∈ set.keys)).length +
        (links.filter fun l => decide (l.localKey ∉ set.keys)).length = links.length := by
    simp only [decide_not]
    exact (List.length_eq_length_filter_add _).symm
  cases links with
  | shared links => exact hone source links
  | split send receive =>
    have hsend := hone source send
    have hreceive := hone dest receive
    simp only [filter, toList, lost, List.length_append] at *
    omega

end Links

namespace LinkTable

def linkCount (t : LinkTable G A) : Nat := (t.links.entries.flatMap (·.2.toList)).length

variable [LT G] [LT A] [DecidableEq G] [DecidableLT G] [DecidableLT A] {t : LinkTable G A}
  {source dest : IndexSet G A}

theorem kept_kept (t : LinkTable G A) (source dest : IndexSet G A) :
    (t.kept source dest).kept source dest = t.kept source dest := by
  have hlinks : ((t.kept source dest).kept source dest).links = (t.kept source dest).links := by
    apply NatMap.ext_get?
    intro rank
    rw [kept, kept, align, align, NatMap.get?_map, NatMap.get?_map, Option.map_map]
    exact Option.map_congr fun links _ => links.filter_filter _ _
  rw [kept, align, LinkTable.mk.injEq]
  exact ⟨hlinks, rfl, rfl, rfl, rfl, rfl, rfl⟩

theorem prune_eq (hground : source.phase = .ground) (hground' : dest.phase = .ground)
    (t : LinkTable G A) :
    t.prune source dest =
    .ok (t.linkCount - (t.kept source dest).linkCount, t.kept source dest) := by
  rw [prune, IndexSet.require, if_pos hground, IndexSet.require, if_pos hground']
  rfl

variable [DecidableEq A] [IsStrictTotalOrder G (· < ·)] [IsStrictTotalOrder A (· < ·)]

theorem isSome_positionOf {set : IndexSet G A} (hset : Ascending set.keys) :
    (fun l : Link G A => (set.positionOf l.localKey).isSome) = fun l =>
    decide (l.localKey ∈ set.keys) := by
  funext l
  rw [Bool.eq_iff_iff, IndexSet.positionOf_isSome_iff hset, decide_eq_true_eq]

theorem links_kept (hsource : Ascending source.keys) (hdest : Ascending dest.keys)
    (t : LinkTable G A) :
    (t.kept source dest).links = t.links.map
    (Links.filter (fun l => decide (l.localKey ∈ source.keys))
      fun l => decide (l.localKey ∈ dest.keys)) := by
  rw [← isSome_positionOf hsource, ← isSome_positionOf hdest]
  rfl

theorem length_lost_add_kept (hsource : Ascending source.keys) (hdest : Ascending dest.keys)
    (t : LinkTable G A) : (t.links.entries.flatMap fun e => e.2.lost source dest).length +
      (t.kept source dest).linkCount = t.linkCount := by
  rw [linkCount, linkCount, links_kept hsource hdest, NatMap.entries_map]
  induction t.links.entries with
  | nil => rfl
  | cons e entries ih =>
    have hfirst := e.2.length_filter_add_lost source dest
    simp only [List.map_cons, List.flatMap_cons, List.length_append] at *
    omega

/-- What pruning a table does to it. -/
structure Pruned (t : LinkTable G A) (source dest : IndexSet G A) (count : Nat)
    (u : LinkTable G A) : Prop where
  send : ∀ rank, u.sendTo rank = (t.sendTo rank).filter fun l =>
    decide (l.localKey ∈ source.keys)
  receive : ∀ rank, u.receiveFrom rank =
    (t.receiveFrom rank).filter fun l => decide (l.localKey ∈ dest.keys)
  shapes : u.links.map Links.isShared = t.links.map Links.isShared
  count : count = (t.links.entries.flatMap fun e => e.2.lost source dest).length
  synced : u.isSynced source dest = true
  unchanged : u = { t with
    links := u.links, sourceRevision := u.sourceRevision, destRevision := u.destRevision }
  again : u.prune source dest = .ok (0, u)

/-- Exactly the links whose key is gone from the set of their direction are dropped. A list for
both directions goes by one set, so it has to be that of either. -/
theorem prune_exact (hsource : Ascending source.keys) (hdest : Ascending dest.keys)
    (hground : source.phase = .ground) (hground' : dest.phase = .ground)
    (hshape : source = dest ∨ ∀ e ∈ t.links.entries, e.2.isShared = false) :
    ∃ count u, t.prune source dest = .ok (count, u) ∧ t.Pruned source dest count u := by
  refine ⟨_, _, prune_eq hground hground' t, ?_⟩
  constructor
  case send =>
    intro rank
    rw [sendTo_kept, isSome_positionOf hsource]
  case receive =>
    intro rank
    rw [receiveFrom, linksTo, links_kept hsource hdest, NatMap.get?_map, receiveFrom, linksTo]
    cases hget : t.links.get? rank with
    | none => rfl
    | some links =>
      refine Links.receive_filter fun hshared => ?_
      rcases hshape with rfl | hsplit
      · rfl
      · rw [hsplit _ (NatMap.get?_eq_some_iff.mp hget)] at hshared
        cases hshared
  case shapes =>
    apply NatMap.ext_get?
    intro rank
    rw [kept, align, NatMap.get?_map, NatMap.get?_map, NatMap.get?_map, Option.map_map]
    exact Option.map_congr fun links _ => links.isShared_filter _ _
  case count =>
    have hcount := length_lost_add_kept hsource hdest t
    omega
  case synced => exact isSynced_align ..
  case unchanged => rfl
  case again => rw [prune_eq hground hground', kept_kept, Nat.sub_self]

end LinkTable

end HaloIndex
