import HaloIndex.Proofs.Link.Table
import HaloIndex.Proofs.Rebuild.Publication
import HaloIndex.Rebuild.Exchange

namespace HaloIndex

variable {G A : Type}

namespace Publication

theorem get?_enter (links : NatMap (Links G A)) (rank k : Nat) (found : Option (Links G A)) :
    (enter links rank found).get? k =
      if k = rank then found.or (links.get? k) else links.get? k := by
  cases found with
  | none => simp [enter]
  | some found => simp [enter, NatMap.get?_insert]

variable [LT G] [LT A] [DecidableEq G] [DecidableEq A] [DecidableLT G] [DecidableLT A]

def found (own other : Publication G A) (ownKeys : Bool) : Option (Links G A) :=
  let links := own.linksWith other.heard ownKeys
  if links.isEmpty then none else some links

theorem linksFrom_encode [Scalar G] [Role A] [LawfulScalar G] [LawfulRole A]
    {registry r : Registry} (h : registry.SpeaksFully G) {other : Publication G A}
    {bytes : List UInt8} (hpack : other.encode r = .ok bytes) (own : Publication G A)
    (ownKeys : Bool) :
    own.linksFrom registry bytes ownKeys = .ok (own.found other ownKeys) := by
  rw [linksFrom, decode_encode h hpack]
  rfl

def hear (own : Publication G A) (published : Nat → Publication G A) (ranks : List Nat)
    (links : NatMap (Links G A)) : NatMap (Links G A) :=
  ranks.foldl (fun links rank => enter links rank (own.found (published rank) false)) links

theorem get?_hear (own : Publication G A) (published : Nat → Publication G A) (ranks : List Nat)
    (links : NatMap (Links G A)) (k : Nat) :
    (own.hear published ranks links).get? k =
      if k ∈ ranks then (own.found (published k) false).or (links.get? k) else links.get? k := by
  induction ranks generalizing links with
  | nil => simp [hear]
  | cons rank ranks ih =>
    have hcons : own.hear published (rank :: ranks) links =
        own.hear published ranks (enter links rank (own.found (published rank) false)) := rfl
    rw [hcons, ih, get?_enter]
    by_cases hk : k = rank
    · subst hk
      cases own.found (published k) false <;> simp
    · simp [hk]

end Publication

variable [LT G] [LT A] [IsStrictTotalOrder G (· < ·)]

namespace Link

theorem mem_keysFrom [DecidableLT G] {k : Key G A} {here : List (Key G A)}
    (h : InOrder here) (g : G) :
    k ∈ keysFrom g here ↔ k ∈ here ∧ ¬k.globalId < g := by
  have hsplit : here.Pairwise fun a b =>
      decide (b.globalId < g) = true → decide (a.globalId < g) = true := by
    refine List.Pairwise.imp (fun {a b} hab hb => ?_) h
    by_contra ha
    have hle : ¬b.globalId < a.globalId := fun hlt => hab (.inl hlt)
    exact not_lt_trans (by simpa using ha) hle (by simpa using hb)
  rw [keysFrom, drop_partitionPoint hsplit, dropWhile_eq_filter hsplit, List.mem_filter]
  simp

theorem mem_same [DecidableEq G] {k : Key G A} {ahead : List (Key G A)}
    (h : InOrder ahead) {g : G} (hg : ∀ k ∈ ahead, ¬k.globalId < g) :
    k ∈ ahead.takeWhile (fun k => decide (k.globalId = g)) ↔ k ∈ ahead ∧ k.globalId = g := by
  have hsplit : ahead.Pairwise fun a b =>
      decide (b.globalId = g) = true → decide (a.globalId = g) = true := by
    refine List.Pairwise.imp_of_mem (fun {a b} ha _ hab hb => ?_) h
    have hb : b.globalId = g := by simpa using hb
    have hle : ¬g < a.globalId := fun hlt => hab (.inl (hb.symm ▸ hlt))
    simpa using Std.Trichotomous.trichotomous _ _ (hg a ha) hle
  rw [takeWhile_eq_filter hsplit, List.mem_filter]
  simp

variable [DecidableEq G] [DecidableEq A] [DecidableLT G]

/-- A link between one of the keys here and one of the remote keys. -/
def Joins (ownKeys : Bool) (remote here : List (Key G A)) (l : Link G A) : Prop :=
  l.localKey ∈ here ∧ l.remoteKey ∈ remote ∧ (ownKeys = true → l.localRole ≠ l.remoteRole)

theorem mem_joins {ownKeys : Bool} {remote here : List (Key G A)} (hremote : InOrder remote)
    (hhere : InOrder here) {l : Link G A} :
    l ∈ joins ownKeys remote here ↔ Joins ownKeys remote here l := by
  induction remote generalizing here with
  | nil => simp [joins, Joins]
  | cons r remote ih =>
    obtain ⟨hr, hremote⟩ := List.pairwise_cons.mp hremote
    have hwanted (a b : A) :
        (!ownKeys || decide (a ≠ b)) = true ↔ (ownKeys = true → a ≠ b) := by
      cases ownKeys <;> simp
    have hahead : InOrder (keysFrom r.globalId here) := hhere.sublist (List.drop_sublist _ here)
    have hfirst : l ∈ ((keysFrom r.globalId here).takeWhile
        (fun k => decide (k.globalId = r.globalId)) |>.filter
            fun k => !ownKeys || decide (k.role ≠ r.role)).map
          (fun k => (⟨r.globalId, k.role, r.role⟩ : Link G A)) ↔
        l.remoteKey = r ∧ l.localKey ∈ here ∧ (ownKeys = true → l.localRole ≠ l.remoteRole) := by
      simp only [List.mem_map, List.mem_filter,
        mem_same hahead (fun k hk => ((mem_keysFrom hhere _).mp hk).2), mem_keysFrom hhere]
      constructor
      · rintro ⟨k, ⟨⟨⟨hk, -⟩, hg⟩, hown⟩, rfl⟩
        exact ⟨rfl, by simpa only [localKey, ← hg] using hk, (hwanted _ _).mp hown⟩
      · rintro ⟨rfl, hk, hown⟩
        exact ⟨l.localKey, ⟨⟨⟨hk, irrefl _⟩, rfl⟩, (hwanted _ _).mpr hown⟩, rfl⟩
    have hlater : Joins ownKeys remote (keysFrom r.globalId here) l ↔
        Joins ownKeys remote here l := by
      simp only [Joins, mem_keysFrom hhere]
      constructor
      · rintro ⟨⟨hk, -⟩, hrest⟩
        exact ⟨hk, hrest⟩
      · rintro ⟨hk, hrest⟩
        exact ⟨⟨hk, fun hlt => hr _ hrest.1 (.inl hlt)⟩, hrest⟩
    rw [joins, List.mem_append, hfirst, ih hremote hahead, hlater]
    simp only [Joins, List.mem_cons]
    constructor
    · rintro (⟨hk, hhere, hown⟩ | ⟨hhere, hk, hown⟩)
      · exact ⟨hhere, .inl hk, hown⟩
      · exact ⟨hhere, .inr hk, hown⟩
    · rintro ⟨hhere, hk | hk, hown⟩
      · exact .inl ⟨hk, hhere, hown⟩
      · exact .inr ⟨hhere, hk, hown⟩

variable [DecidableLT A]

theorem mem_matched {ownKeys : Bool} {remote here : List (Key G A)} (hremote : InOrder remote)
    (hhere : InOrder here) {l : Link G A} :
    l ∈ matched ownKeys remote here ↔ Joins ownKeys remote here l := by
  rw [matched, mem_eraseReps, sorted, List.mem_mergeSort, mem_joins hremote hhere]

variable [IsStrictTotalOrder A (· < ·)]

theorem ascending_matched (ownKeys : Bool) (remote here : List (Key G A)) :
    Ascending (matched ownKeys remote here) :=
  ascending_eraseReps (pairwise_mergeSort_key id _)

/-- The links are the join of the remote and the local keys, in strictly ascending order, and no
other list is. Remote keys may be repeated; among our own keys equal roles are not joined. -/
theorem matched_exact {remote here : List (Key G A)} (hremote : InOrder remote)
    (hhere : Ascending here) (ownKeys : Bool) : Ascending (matched ownKeys remote here) ∧
      (∀ g a b, ⟨g, a, b⟩ ∈ matched ownKeys remote here ↔
        ⟨g, b⟩ ∈ remote ∧ ⟨g, a⟩ ∈ here ∧ (ownKeys = true → a ≠ b)) ∧
      ∀ links : List (Link G A), Ascending links →
        (∀ g a b, ⟨g, a, b⟩ ∈ links ↔
          ⟨g, b⟩ ∈ remote ∧ ⟨g, a⟩ ∈ here ∧ (ownKeys = true → a ≠ b)) →
        links = matched ownKeys remote here := by
  have hascending := ascending_matched ownKeys remote here
  have hmem : ∀ g a b, ⟨g, a, b⟩ ∈ matched ownKeys remote here ↔
      ⟨g, b⟩ ∈ remote ∧ ⟨g, a⟩ ∈ here ∧ (ownKeys = true → a ≠ b) := by
    intro g a b
    rw [mem_matched hremote hhere.inOrder]
    exact and_left_comm
  refine ⟨hascending, hmem, fun links hlinks hjoin => hlinks.ext hascending fun l => ?_⟩
  obtain ⟨g, a, b⟩ := l
  rw [hjoin, hmem]

def repeatedKeys : List (Key UInt64 MeshRole) :=
  [⟨1, .owner⟩, ⟨1, .owner⟩, ⟨1, .overlap⟩, ⟨2, .owner⟩, ⟨5, .ghost⟩]

def ownKeysAround : List (Key UInt64 MeshRole) :=
  [⟨0, .owner⟩, ⟨1, .owner⟩, ⟨1, .overlap⟩, ⟨5, .border⟩]

theorem matched_exact_repeatedKeys : InOrder repeatedKeys ∧ Ascending ownKeysAround ∧
    Ascending (matched true repeatedKeys ownKeysAround) ∧
    ⟨1, .overlap, .owner⟩ ∈ matched true repeatedKeys ownKeysAround ∧
    ⟨1, .owner, .owner⟩ ∉ matched true repeatedKeys ownKeysAround ∧
    ⟨1, .owner, .owner⟩ ∈ matched false repeatedKeys ownKeysAround ∧
    ⟨5, .border, .ghost⟩ ∈ matched false repeatedKeys ownKeysAround := by
  have hremote : InOrder repeatedKeys := by decide
  have hhere : Ascending ownKeysAround := by decide
  obtain ⟨hascending, hown, -⟩ := matched_exact hremote hhere true
  obtain ⟨-, hother, -⟩ := matched_exact hremote hhere false
  have hequal : ⟨1, .owner, .owner⟩ ∉ matched true repeatedKeys ownKeysAround := by
    rw [hown]
    decide
  exact ⟨hremote, hhere, hascending, (hown 1 .overlap .owner).mpr (by decide), hequal,
    (hother 1 .owner .owner).mpr (by decide), (hother 5 .border .ghost).mpr (by decide)⟩

end Link

namespace Publication

variable [DecidableEq G] [DecidableEq A] [DecidableLT G] [DecidableLT A]
  {own other : Publication G A}

theorem mem_send_linksWith (hown : own.Ordered) (hother : other.Ordered) {ownKeys : Bool}
    {l : Link G A} : l ∈ (own.linksWith other ownKeys).send ↔
      Link.Joins ownKeys other.destKeys own.source l := by
  unfold linksWith
  split
  next => exact Link.mem_matched hother.destKeys hown.source
  next h =>
    have hdest : other.destKeys = other.source := by
      rw [Bool.or_eq_true, not_or, Option.not_isSome_iff_eq_none,
        Option.not_isSome_iff_eq_none] at h
      rw [Publication.destKeys, h.2, Option.getD_none]
    rw [hdest]
    exact Link.mem_matched hother.source hown.source

theorem mem_receive_linksWith (hown : own.Ordered) (hother : other.Ordered) {ownKeys : Bool}
    {l : Link G A} : l ∈ (own.linksWith other ownKeys).receive ↔
      Link.Joins ownKeys other.source own.destKeys l := by
  unfold linksWith
  split
  next => exact Link.mem_matched hother.source hown.destKeys
  next h =>
    have hdest : own.destKeys = own.source := by
      rw [Bool.or_eq_true, not_or, Option.not_isSome_iff_eq_none,
        Option.not_isSome_iff_eq_none] at h
      rw [Publication.destKeys, h.1, Option.getD_none]
    rw [hdest]
    exact Link.mem_matched hother.source hown.source

variable [IsStrictTotalOrder A (· < ·)]

theorem ascending_linksWith (own other : Publication G A) (ownKeys : Bool) :
    Ascending (own.linksWith other ownKeys).send ∧
      Ascending (own.linksWith other ownKeys).receive := by
  unfold linksWith
  split
  · exact ⟨Link.ascending_matched .., Link.ascending_matched ..⟩
  · exact ⟨Link.ascending_matched .., Link.ascending_matched ..⟩

end Publication

end HaloIndex
