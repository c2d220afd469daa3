import HaloIndex.Proofs.Sync.ClosedForm

namespace HaloIndex

variable {G A : Type}

namespace IndexSet

variable [DecidableEq G] [LT G] [LT A] [DecidableLT G] [DecidableLT A] {s : IndexSet G A}

/-- A commit of no changes only raises the revision. -/
theorem commit_reopened (hs : s.WellFormed) (hphase : s.phase = .ground) :
    commit { s with phase := .resize } = (.ok (), { s with revision := s.revision + 1 }) := by
  obtain ⟨hnone, hvalid⟩ := hs.settled hphase
  have hkept : merged { s with phase := .resize } = s.holdings := by
    rw [merged_of_none (s := { s with phase := .resize }) hnone]
    apply List.filter_eq_self.mpr
    intro h hh
    rw [hvalid h hh]
    rfl
  rw [commit_eq rfl, committed, hkept, hphase, hnone, hs.pendingKeys_eq_nil hphase]

end IndexSet

namespace Discovery

theorem forEach_of_fixed {β σ : Type} {act : β → σ → Except Fault Unit × σ} {xs : List β} {s : σ}
    (h : ∀ x ∈ xs, act x s = (.ok (), s)) : forEach act xs s = (.ok (), s) := by
  induction xs with
  | nil => rfl
  | cons x xs ih =>
    rw [forEach, h x (List.mem_cons_self ..)]
    exact ih fun y hy => h y (List.mem_cons_of_mem _ hy)

variable [LT G] [LT A] [DecidableEq G] [DecidableEq A] [DecidableLT G] [DecidableLT A]
  [IsStrictTotalOrder G (· < ·)] [IsStrictTotalOrder A (· < ·)] {d : Discovery G A}

theorem insertLink_of_mem {links : List (Link G A)} (h : Ascending links) {link : Link G A}
    (hl : link ∈ links) : insertLink link links = links := by
  apply (ascending_insertLink h link).ext h
  intro l
  rw [mem_insertLink h]
  apply or_iff_left_of_imp
  intro he
  exact he ▸ hl

theorem record_of_mem (hd : d.Open) {rank : Nat} {link : Link G A} (hl : link ∈ d.linksTo rank) :
    d.record rank link = d := by
  have hlists : d.links.modify rank [] (insertLink link) = d.links := by
    apply NatMap.ext_get?
    intro k
    rw [NatMap.get?_modify]
    split
    next h =>
      subst h
      have hascending := hd.ascending k
      rw [linksTo] at hl hascending
      rw [insertLink_of_mem hascending hl]
      cases hget : d.links.get? k with
      | none =>
        rw [hget] at hl
        cases hl
      | some links => rfl
    next => rfl
  rw [record, hlists]

variable [Scalar G] [Role A] {own sender : Nat}

theorem adopt_of_known (hd : d.Open) (numbering : Numbering G) {a : Announcement G A} {role : A}
    (hheld : d.set.holds ⟨a.key.globalId, role⟩ = true)
    (hlinks : ∀ rank l, Tells own sender a role rank l → l ∈ d.linksTo rank) :
    adopt own sender numbering a role d = (.ok (), d) := by
  have hhold : hold numbering ⟨a.key.globalId, role⟩ d = (.ok (), d) := by
    rw [hold, if_pos hheld]
  have hsender :=
    record_of_mem hd (hlinks sender ⟨a.key.globalId, role, a.key.role⟩ (.inl ⟨rfl, rfl⟩))
  have hothers : ∀ knowers : List (Nat × A), (∀ knower ∈ knowers, knower ∈ a.others own) →
      knowers.foldl (fun d knower =>
        d.record knower.1 ⟨a.key.globalId, role, knower.2⟩) d = d := by
    intro knowers hknowers
    induction knowers with
    | nil => rfl
    | cons knower knowers ih =>
      obtain ⟨hmem, hne⟩ := List.mem_filter.mp (hknowers knower (List.mem_cons_self ..))
      have hlink := hlinks knower.1 ⟨a.key.globalId, role, knower.2⟩
        (.inr ⟨by simpa using hne, knower.2, hmem, rfl⟩)
      rw [List.foldl_cons, record_of_mem hd hlink]
      exact ih fun other hother => hknowers other (List.mem_cons_of_mem _ hother)
  rw [adopt, hhold]
  simp only [hsender, hothers _ fun _ h => h]

theorem adoptAll_of_known (hd : d.Open) (numbering : Numbering G) {as : List (Announcement G A)}
    (hheld : ∀ a ∈ as, ∀ role ∈ a.rolesOf own, d.set.holds ⟨a.key.globalId, role⟩ = true)
    (hlinks : ∀ a ∈ as, ∀ role ∈ a.rolesOf own, ∀ rank l, Tells own sender a role rank l →
      l ∈ d.linksTo rank) :
    adoptAll own sender numbering as d = (.ok (), d) := by
  apply forEach_of_fixed
  intro a ha
  apply forEach_of_fixed
  intro role hrole
  exact adopt_of_known hd numbering (hheld a ha role hrole) (hlinks a ha role hrole)

end Discovery

namespace Sync

/-- Nobody tells a rank of a key or a link that it does not have. -/
structure ToldKnown (b : Nat → Sync G A) (rank : Nat) : Prop where
  keys : ∀ peer ∈ (b rank).peers rank, ∀ k, (b peer).TellsKey rank k → k ∈ (b rank).set.keys
  links : ∀ peer ∈ (b rank).peers rank, ∀ other l, (b peer).TellsLink peer rank other l →
    l ∈ (b rank).table.sendTo other

/-- The links of a rank join keys that their holders make known. -/
def Grounded (size : Nat) (known : Nat → Key G A → Prop) (b : Nat → Sync G A)
    (rank : Nat) : Prop :=
  ∀ other, ∀ l ∈ (b rank).table.sendTo other,
    other < size ∧ known rank l.localKey ∧ known other l.remoteKey

/-- A rank holds the keys it is known by, and is linked to all others wherever such keys meet. -/
structure Thorough (size : Nat) (known : Nat → Key G A → Prop) (b : Nat → Sync G A)
    (rank : Nat) :
    Prop where
  keys : ∀ k, known rank k → k ∈ (b rank).set.keys
  links : ∀ other < size, other ≠ rank → ∀ l : Link G A, known rank l.localKey →
    known other l.remoteKey →
    l ∈ (b rank).table.sendTo other

section Telling

variable {size rank peer : Nat} {known : Nat → Key G A → Prop} {b : Nat → Sync G A}

theorem Grounded.of_tellsKey (h : Grounded size known b peer) {k : Key G A}
    (htells : (b peer).TellsKey rank k) :
    known rank k ∧ ∃ role, known peer ⟨k.globalId, role⟩ := by
  obtain ⟨role, -, hknows⟩ := htells
  obtain ⟨-, hthere, hhere⟩ := h rank _ hknows
  exact ⟨hhere, role, hthere⟩

theorem Grounded.of_tellsLink (h : Grounded size known b peer) (hlt : peer < size)
    (hne : peer ≠ rank) {other : Nat} {l : Link G A}
    (htells : (b peer).TellsLink peer rank other l) :
    other < size ∧ other ≠ rank ∧ known rank l.localKey ∧ known other l.remoteKey := by
  obtain ⟨role, -, hknows, hother⟩ := htells
  obtain ⟨-, hthere, hhere⟩ := h rank _ hknows
  rcases hother with ⟨rfl, rfl⟩ | ⟨hne', hthird⟩
  · exact ⟨hlt, hne, hhere, hthere⟩
  · obtain ⟨hlt', -, hthird⟩ := h other _ hthird
    exact ⟨hlt', hne', hhere, hthird⟩

theorem Thorough.toldKnown (h : Thorough size known b rank)
    (hpeers : ∀ peer ∈ (b rank).peers rank, peer < size ∧ Grounded size known b peer) :
    ToldKnown b rank := by
  constructor
  case keys =>
    intro peer hpeer k htells
    exact h.keys k ((hpeers peer hpeer).2.of_tellsKey htells).1
  case links =>
    intro peer hpeer other l htells
    obtain ⟨hlt, hgrounded⟩ := hpeers peer hpeer
    obtain ⟨hlt', hne, hhere, hthere⟩ := hgrounded.of_tellsLink hlt (mem_peers.mp hpeer).1 htells
    exact h.links other hlt' hne l hhere hthere

end Telling

variable [Scalar G] [Role A] [LT G] [LT A] [DecidableEq G] [DecidableEq A] [DecidableLT G]
  [DecidableLT A] [IsStrictTotalOrder G (· < ·)] [IsStrictTotalOrder A (· < ·)] {size rank : Nat}
  {b : Nat → Sync G A}

theorem found_of_known (h : Syncs size b) (htidy : ∀ rank < size, (b rank).Tidy)
    (hrank : rank < size) (hknown : ToldKnown b rank) : found b rank = (b rank).start := by
  have hopen := (htidy rank hrank).open_start
  have hphase := (LinkTable.checkSyncable_eq_ok_iff.mp (h.checked rank hrank)).1
  have hhear : ∀ peer ∈ (b rank).peers rank,
      hear b rank peer (b rank).start = (b rank).start := by
    intro peer hpeer
    have htold := told_eq (htidy peer (h.neighbourly.lt rank hrank peer hpeer)) rank
    rw [hear, htold, Discovery.adoptAll_of_known hopen]
    · intro a ha role hrole
      rw [holds_start (htidy rank hrank).wellFormed hphase]
      exact hknown.keys peer hpeer _ (tellsKey_iff.mpr ⟨a, ha, role, hrole, rfl⟩)
    · intro a ha role hrole other l htells
      rw [linksTo_start]
      exact hknown.links peer hpeer other l (tellsLink_iff.mpr ⟨a, ha, role, hrole, htells⟩)
  rw [found]
  generalize (b rank).peers rank = peers at hhear
  induction peers with
  | nil => rfl
  | cons peer peers ih =>
    rw [List.foldl_cons, hhear peer (List.mem_cons_self ..)]
    exact ih fun other hother => hhear other (List.mem_cons_of_mem _ hother)

/-- A rank that is told nothing new ends with what it had, one revision on. -/
theorem ending_of_known (h : Syncs size b) (htidy : ∀ rank < size, (b rank).Tidy)
    (hrank : rank < size) (hshared : (b rank).table.links = (b rank).known.map .shared)
    (hknown : ToldKnown b rank) :
    ending b rank =
      let set := { (b rank).set with revision := (b rank).set.revision + 1 }
      ⟨.ok (), set, (b rank).table.align set set, []⟩ := by
  obtain ⟨hphase, hone, -, -⟩ := LinkTable.checkSyncable_eq_ok_iff.mp (h.checked rank hrank)
  have hcommit := IndexSet.commit_reopened (htidy rank hrank).wellFormed hphase
  rw [ending, found_of_known h htidy hrank hknown, settle_ok hcommit, start, ← hshared, ← hone]

end Sync

end HaloIndex
