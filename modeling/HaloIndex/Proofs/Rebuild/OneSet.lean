import HaloIndex.Proofs.IndexSet.Resize
import HaloIndex.Proofs.Rebuild.Routes

namespace HaloIndex

variable {G A : Type}

namespace Rebuild

def Shows (b : Rebuild G A) (k : Key G A) : Prop := b.ends.source.Publishes b.ignorePublic k

/-- Every rank has one set, in order and closed for changes, and those who make a common
identifier known can reach each other. -/
structure Single [LT G] [LT A] (size : Nat) (route : Route) (b : Nat → Rebuild G A) : Prop where
  one : ∀ rank < size, (b rank).ends.isOne = true
  wellFormed : ∀ rank < size, (b rank).ends.source.WellFormed
  reaches : route = .neighbours →
    ∀ p < size, ∀ q < size, p ≠ q → (b p).Shares (b q) → (b p).Declares q

theorem dest_eq_source {b : Rebuild G A} (h : b.ends.isOne = true) :
    b.ends.dest = b.ends.source :=
  Endpoints.dest_eq_source h

theorem dest_published_eq_none {b : Rebuild G A} (h : b.ends.isOne = true) :
    b.published.dest = none := by
  obtain ⟨table, ends, ignorePublic⟩ := b
  cases ends with
  | one set => rfl
  | two source dest => cases h

theorem mem_keys_of_shows {b : Rebuild G A} {k : Key G A} (h : b.Shows k) :
    k ∈ b.ends.source.keys :=
  IndexSet.Publishes.mem_keys h

theorem Linked.symm {b c : Rebuild G A} (h : b.Linked c) : c.Linked b := by
  obtain ⟨l, ⟨hlocal, hremote⟩ | ⟨hlocal, hremote⟩⟩ := h
  · exact ⟨l.reversed, .inr ⟨hremote, hlocal⟩⟩
  · exact ⟨l.reversed, .inl ⟨hremote, hlocal⟩⟩

theorem not_mem_sources_self {size rank : Nat} (hrank : rank < size) (route : Route)
    (b : Rebuild G A) :
    rank ∉ route.sources size rank (b.neighbours rank) := by
  intro hmem
  cases route with
  | ring => exact ((mem_sources_ring_iff hrank _).mp hmem).2 rfl
  | neighbours => exact (mem_keys_neighbours.mp hmem).1 rfl

variable [LT G] [LT A] [Scalar G] [Role A] {size : Nat} {registry : Nat → Registry} {tag : Tag}
  {route : Route} {b : Nat → Rebuild G A} {rank k : Nat} {l : Link G A}

theorem lt_of_mem_sources (h : Prepared size registry tag route b) (hrank : rank < size)
    (hk : k ∈ route.sources size rank ((b rank).neighbours rank)) : k < size := by
  cases route with
  | ring => exact ((mem_sources_ring_iff hrank _).mp hk).1
  | neighbours => exact (h.neighbourly rfl).lt rank hrank k hk

theorem ordered_of_prepared [IsStrictTotalOrder G (· < ·)] [IsStrictTotalOrder A (· < ·)]
    (h : Prepared size registry tag route b) (hrank : rank < size) :
    (b rank).published.Ordered :=
  ordered_published (h.source rank hrank).ascending (h.dest rank hrank).ascending

variable [DecidableEq G] [DecidableEq A] [DecidableLT G] [DecidableLT A]

theorem exists_found_of_linksTo (h : Prepared size registry tag route b) (hrank : rank < size)
    {links : Links G A} (hlinks : (result route size b rank).linksTo k = some links) :
    k < size ∧ ∃ ownKeys, (b rank).published.found (b k).published ownKeys = some links := by
  by_cases hself : k = rank
  · subst hself
    rw [linksTo_result_self route b (not_mem_sources_self hrank route (b k)), loopBack,
      Publication.get?_enter, if_pos rfl, NatMap.get?_empty, Option.or_none] at hlinks
    split at hlinks
    · exact ⟨hrank, _, hlinks⟩
    · cases hlinks
  · rw [linksTo_result route size b hself] at hlinks
    split at hlinks
    next hk => exact ⟨lt_of_mem_sources h hrank hk, _, hlinks⟩
    next => cases hlinks

theorem links_result_shared (h : Prepared size registry tag route b)
    (hsingle : Single size route b) (hrank : rank < size) : (result route size b rank).links =
      ((result route size b rank).links.map Links.send).map .shared := by
  apply NatMap.ext_get?
  intro k
  rw [NatMap.get?_map, NatMap.get?_map]
  change (result route size b rank).linksTo k = _
  cases hlinks : (result route size b rank).linksTo k with
  | none =>
    rw [LinkTable.linksTo] at hlinks
    rw [hlinks]
    rfl
  | some links =>
    obtain ⟨hk, ownKeys, hfound⟩ := exists_found_of_linksTo h hrank hlinks
    rw [LinkTable.linksTo] at hlinks
    rw [hlinks]
    have hown := dest_published_eq_none (hsingle.one rank hrank)
    have hother : (b k).published.heard.dest = none := by
      rw [Publication.heard, dest_published_eq_none (hsingle.one k hk)]
      rfl
    have hlist : (b rank).published.linksWith (b k).published.heard ownKeys =
        .shared (Link.matched ownKeys (b k).published.heard.source
          (b rank).published.source) := by
      rw [Publication.linksWith, hown, hother]
      rfl
    rw [Publication.found, hlist] at hfound
    split at hfound
    · cases hfound
    · rw [← Option.some.inj hfound]
      rfl

variable [IsStrictTotalOrder G (· < ·)] [IsStrictTotalOrder A (· < ·)]

/-- Both ends of a link are made known, and by ranks that exist. -/
theorem published_of_mem_result (h : Prepared size registry tag route b)
    (hsingle : Single size route b) (hrank : rank < size)
    (hl : l ∈ (result route size b rank).sendTo k) :
    k < size ∧ (b rank).Shows l.localKey ∧ (b k).Shows l.remoteKey := by
  obtain ⟨links, hentry, hsend⟩ := LinkTable.mem_sendTo.mp hl
  obtain ⟨hk, ownKeys, hfound⟩ :=
    exists_found_of_linksTo h hrank (NatMap.get?_eq_some_iff.mpr hentry)
  rw [Publication.found] at hfound
  split at hfound
  · cases hfound
  · rw [← Option.some.inj hfound, Publication.mem_send_linksWith (ordered_of_prepared h hrank)
      (b k).published.ordered_heard] at hsend
    obtain ⟨hlocal, hremote, -⟩ := hsend
    rw [mem_source_published] at hlocal
    rw [Publication.mem_destKeys_heard, mem_destKeys_published,
      dest_eq_source (hsingle.one k hk)] at hremote
    exact ⟨hk, hlocal, hremote⟩

theorem mem_sendTo_result_iff (h : Prepared size registry tag route b)
    (hsingle : Single size route b) (hrank : rank < size) (hk : k < size) (hne : k ≠ rank) :
    l ∈ (result route size b rank).sendTo k ↔
    (b rank).Shows l.localKey ∧ (b k).Shows l.remoteKey := by
  constructor
  · intro hl
    exact (published_of_mem_result h hsingle hrank hl).2
  · rintro ⟨hlocal, hremote⟩
    have hheard : k ∈ route.sources size rank ((b rank).neighbours rank) := by
      cases route with
      | ring => exact (mem_sources_ring_iff hrank _).mpr ⟨hk, hne⟩
      | neighbours =>
        have hshares : (b rank).Shares (b k) :=
          ⟨l.localKey, l.remoteKey, rfl, .inl hlocal, .inl hremote⟩
        exact mem_keys_neighbours.mpr ⟨hne, hsingle.reaches rfl rank hrank k hk hne.symm hshares⟩
    apply ((exact_result h hrank hne hheard).send l).mpr
    rw [Sends, dest_eq_source (hsingle.one k hk)]
    exact ⟨hlocal, hremote⟩

theorem ascending_result (h : Prepared size registry tag route b)
    (hrank : rank < size) (k : Nat) :
    Ascending ((result route size b rank).sendTo k) := by
  cases hlinks : (result route size b rank).linksTo k with
  | none =>
    rw [LinkTable.sendTo, hlinks]
    exact .nil
  | some links =>
    obtain ⟨-, ownKeys, hfound⟩ := exists_found_of_linksTo h hrank hlinks
    rw [LinkTable.sendTo, hlinks]
    rw [Publication.found] at hfound
    split at hfound
    · cases hfound
    · rw [← Option.some.inj hfound]
      exact (Publication.ascending_linksWith ..).1

theorem isSome_result_comm (h : Prepared size registry tag route b) (hrank : rank < size)
    (hk : k < size) (hne : k ≠ rank) (hlisted : ((result route size b rank).linksTo k).isSome) :
    ((result route size b k).linksTo rank).isSome := by
  by_cases hheard : k ∈ route.sources size rank ((b rank).neighbours rank)
  · have hback := h.mem_sources_comm hrank hk hheard
    obtain hlinked : (b rank).Linked (b k) := (exact_result h hrank hne hheard).listed.mp hlisted
    exact (exact_result h hk hne.symm hback).listed.mpr hlinked.symm
  · rw [linksTo_result route size b hne, if_neg hheard] at hlisted
    cases hlisted

end Rebuild

end HaloIndex
