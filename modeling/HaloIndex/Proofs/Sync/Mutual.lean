import HaloIndex.Proofs.Sync.ClosedForm

namespace HaloIndex

variable {G A : Type}

namespace Sync

theorem TellsLink.tellsKey {b : Sync G A} {own rank other : Nat} {l : Link G A}
    (h : b.TellsLink own rank other l) : b.TellsKey rank l.localKey := by
  obtain ⟨role, hkey, hknows, -⟩ := h
  exact ⟨role, hkey, hknows⟩

def Outward (size : Nat) (b : Nat → Sync G A) : Prop :=
  ∀ rank < size, (b rank).table.linksTo rank = none

def again (r : Nat → SyncResult G A) (numbering : Nat → Numbering G) (rank : Nat) : Sync G A :=
  ⟨(r rank).table, (r rank).set, numbering rank⟩

theorem Exact.outward [LT G] [LT A] {size : Nat} {b : Nat → Sync G A} {r : Nat → SyncResult G A}
    (hself : Outward size b) (hr : ∀ rank < size, Exact b rank (r rank))
    (numbering : Nat → Numbering G) :
    Outward size (again r numbering) := by
  intro rank hrank
  apply Option.not_isSome_iff_eq_none.mp
  intro hlisted
  rcases ((hr rank hrank).listed rank).mp hlisted with hold | ⟨l, peer, hpeer, role, -, -,
    hown | hthird⟩
  · rw [hself rank hrank] at hold
    cases hold
  · exact (mem_peers.mp hpeer).1 hown.1.symm
  · exact hthird.1 rfl

variable [Scalar G] [LT G] [LT A] [DecidableEq G] [DecidableEq A] [DecidableLT G] [DecidableLT A]
  {size : Nat} {b : Nat → Sync G A} {r : Nat → SyncResult G A}

theorem TellsLink.lt (h : Syncs size b) {peer : Nat} (hpeer : peer < size) {rank other : Nat}
    {l : Link G A} (htells : (b peer).TellsLink peer rank other l) : other < size := by
  obtain ⟨role, -, -, ⟨rfl, -⟩ | ⟨-, hthird⟩⟩ := htells
  · exact hpeer
  · exact h.inRange peer hpeer other (LinkTable.isSome_of_mem_sendTo hthird)

/-- Two ranks agree on their links to each other and hold the keys that these are about. -/
structure Agree (r : Nat → SyncResult G A) (p q : Nat) : Prop where
  localHeld : ∀ l ∈ (r p).table.sendTo q, l.localKey ∈ (r p).set.keys
  remoteHeld : ∀ l ∈ (r p).table.sendTo q, l.remoteKey ∈ (r q).set.keys
  reversed : ∀ l ∈ (r p).table.sendTo q, l.reversed ∈ (r q).table.sendTo p
  listed : ((r p).table.linksTo q).isSome ↔ ((r q).table.linksTo p).isSome

variable [IsStrictTotalOrder G (· < ·)] [IsStrictTotalOrder A (· < ·)]

theorem localKey_mem_of_checked (h : Syncs size b)
    (htidy : ∀ rank < size, (b rank).Tidy) {rank : Nat} (hrank : rank < size) {other : Nat}
    {l : Link G A} (hl : l ∈ (b rank).table.sendTo other) :
    l.localKey ∈ (b rank).set.keys := by
  obtain ⟨-, -, -, hheld⟩ := LinkTable.checkSyncable_eq_ok_iff.mp (h.checked rank hrank)
  exact (IndexSet.positionOf_isSome_iff (htidy rank hrank).wellFormed.ascending).mp
    (hheld other l hl)

theorem Exact.localKey_mem (h : Syncs size b) (htidy : ∀ rank < size, (b rank).Tidy) {rank : Nat}
    (hrank : rank < size) (hr : Exact b rank (r rank)) {other : Nat} {l : Link G A}
    (hl : l ∈ (r rank).table.sendTo other) : l.localKey ∈ (r rank).set.keys := by
  rw [hr.keys]
  rcases (hr.links other l).mp hl with hl | ⟨peer, hpeer, htells⟩
  · exact .inl (localKey_mem_of_checked h htidy hrank hl)
  · exact .inr ⟨peer, hpeer, htells.tellsKey⟩

theorem Exact.reversed_mem (h : Syncs size b) (htidy : ∀ rank < size, (b rank).Tidy)
    (hself : Outward size b)
    (hr : ∀ rank < size, Exact b rank (r rank)) {p q : Nat} (hp : p < size) (hq : q < size)
    (hne : p ≠ q) {l : Link G A} (hl : l ∈ (r p).table.sendTo q) :
    l.reversed ∈ (r q).table.sendTo p := by
  rw [(hr q hq).links]
  rcases ((hr p hp).links q l).mp hl with hl | ⟨peer, hpeer, role, hkey, hknows,
    ⟨rfl, hrole⟩ | hthird⟩
  -- A link that was kept is told to the other rank.
  · right
    have hlisted := h.symmetric p hp q hq hne (LinkTable.isSome_of_mem_sendTo hl)
    refine ⟨p, mem_peers.mpr ⟨hne, hlisted⟩, l.localRole, ?_, hl, .inl ⟨rfl, rfl⟩⟩
    exact localKey_mem_of_checked h htidy hp hl
  -- One that the other rank told is kept there.
  · left
    rw [Link.reversed, hrole]
    exact hknows
  -- And one that a third rank told is told by it to both.
  · right
    obtain ⟨-, hthird⟩ := hthird
    obtain ⟨hpp, hlisted⟩ := mem_peers.mp hpeer
    have hpeers := h.inRange p hp peer hlisted
    have htoq := LinkTable.isSome_of_mem_sendTo hthird
    have hqp : q ≠ peer := by
      rintro rfl
      rw [hself q hq] at htoq
      cases htoq
    have hback := h.symmetric peer hpeers q hq hqp.symm htoq
    exact ⟨peer, mem_peers.mpr ⟨hqp.symm, hback⟩, role, hkey, hthird, .inr ⟨hne, hknows⟩⟩

theorem Exact.listed_of_listed (h : Syncs size b) (htidy : ∀ rank < size, (b rank).Tidy)
    (hself : Outward size b)
    (hr : ∀ rank < size, Exact b rank (r rank)) {p q : Nat} (hp : p < size) (hq : q < size)
    (hne : p ≠ q) (hlisted : ((r p).table.linksTo q).isSome) :
    ((r q).table.linksTo p).isSome := by
  rcases ((hr p hp).listed q).mp hlisted with hold | ⟨l, htold⟩
  · exact ((hr q hq).listed p).mpr (.inl (h.symmetric p hp q hq hne hold))
  · have hl : l ∈ (r p).table.sendTo q := ((hr p hp).links q l).mpr (.inr htold)
    exact LinkTable.isSome_of_mem_sendTo (Exact.reversed_mem h htidy hself hr hp hq hne hl)

theorem Exact.agree (h : Syncs size b) (htidy : ∀ rank < size, (b rank).Tidy)
    (hself : Outward size b) (hr : ∀ rank < size, Exact b rank (r rank)) {p q : Nat}
    (hp : p < size) (hq : q < size) (hne : p ≠ q) : Agree r p q := by
  constructor
  case localHeld =>
    intro l hl
    exact Exact.localKey_mem h htidy hp (hr p hp) hl
  case remoteHeld =>
    intro l hl
    exact Exact.localKey_mem h htidy hq (hr q hq)
      (Exact.reversed_mem h htidy hself hr hp hq hne hl)
  case reversed =>
    intro l hl
    exact Exact.reversed_mem h htidy hself hr hp hq hne hl
  case listed =>
    constructor
    · exact Exact.listed_of_listed h htidy hself hr hp hq hne
    · exact Exact.listed_of_listed h htidy hself hr hq hp hne.symm

theorem Exact.checked (h : Syncs size b) (htidy : ∀ rank < size, (b rank).Tidy) {rank : Nat}
    (hrank : rank < size) (hr : Exact b rank (r rank)) :
    (r rank).table.checkSyncable (r rank).set = .ok () := by
  rw [LinkTable.checkSyncable_eq_ok_iff]
  refine ⟨hr.phase, hr.shared, hr.synced, fun other l hl => ?_⟩
  rw [IndexSet.positionOf_isSome_iff hr.wellFormed.ascending]
  exact Exact.localKey_mem h htidy hrank hr hl

theorem Exact.syncs (h : Syncs size b) (htidy : ∀ rank < size, (b rank).Tidy)
    (hself : Outward size b) (hr : ∀ rank < size, Exact b rank (r rank))
    (numbering : Nat → Numbering G) :
    Syncs size (again r numbering) := by
  constructor
  case checked =>
    intro rank hrank
    exact Exact.checked h htidy hrank (hr rank hrank)
  case inRange =>
    intro rank hrank other hlisted
    rcases ((hr rank hrank).listed other).mp hlisted with hold | ⟨l, peer, hpeer, htells⟩
    · exact h.inRange rank hrank other hold
    · exact htells.lt h (h.neighbourly.lt rank hrank peer hpeer)
  case symmetric =>
    intro rank hrank other hother hne hlisted
    exact Exact.listed_of_listed h htidy hself hr hrank hother hne hlisted

variable [Role A] [LawfulScalar G] [LawfulRole A]

/-- However the ranks are interleaved while they sync, afterwards any two of them agree, whatever
their tables said before, and all are ready for the next sync. -/
theorem sync_mutual {n : Network} (registry : Nat → Registry) (settings : SyncSettings)
    {b : Nat → Sync G A} (hready : Syncs n.size b) (htidy : ∀ rank < n.size, (b rank).Tidy)
    (hself : Outward n.size b)
    (hclear : ∀ source < n.size, ∀ dest < n.size, n.channel source dest settings.tag = [])
    (hspeaks : ∀ rank < n.size, (registry rank).Speaks G) :
    ∃ results : Nat → SyncResult G A,
      (∀ p < n.size, ∀ q < n.size, p ≠ q → Agree results p q) ∧
      (∀ numbering, Syncs n.size (again results numbering) ∧
        Outward n.size (again results numbering) ∧
        ∀ rank < n.size, (again results numbering rank).Tidy) ∧
      (∀ q, Relation.ReflTransGen Pool.Step (beginning n registry settings b) q →
        (∀ task ∈ q.tasks, ∃ r, task.program = .done r ∧ r.outcome = .ok ()) →
        q.results = (List.range n.size).map results ∧ q.network.traffic = n.traffic) ∧
      (Packs n.size registry b → (beginning n registry settings b).Inevitable fun q =>
        q.results = (List.range n.size).map results ∧ q.network.traffic = n.traffic) := by
  have hexact : ∀ rank < n.size, Exact b rank (ending b rank) :=
    fun _ hrank => exact_settle hready htidy hrank
  refine ⟨ending b, fun p hp q hq hne => Exact.agree hready htidy hself hexact hp hq hne,
    fun numbering => ⟨Exact.syncs hready htidy hself hexact numbering,
      Exact.outward hself hexact numbering,
      fun rank hrank => ⟨(hexact rank hrank).wellFormed, (hexact rank hrank).ascending⟩⟩,
    fun q hq hdone => eq_ending_of_done hready hclear hspeaks hq hdone,
    fun hpack => inevitable_ending hready hclear hspeaks hpack⟩

theorem sync_mutual_thirdHolder :
    ∃ results : Nat → SyncResult UInt64 MeshRole,
      (∀ p < 3, ∀ q < 3, p ≠ q → Agree results p q) ∧
      (∀ numbering, Syncs 3 (again results numbering) ∧ Outward 3 (again results numbering) ∧
        ∀ rank < 3, (again results numbering rank).Tidy) ∧
      (beginning (.quiet 3) (fun _ => .basic) {} thirdHolder).Inevitable fun q =>
        q.results = [results 0, results 1, results 2] ∧
          q.network.traffic = (Network.quiet 3).traffic := by
  have hself : ∀ rank < 3, (thirdHolder rank).table.linksTo rank = none := by decide +kernel
  obtain ⟨results, hagree, hagain, -, hend⟩ := sync_mutual (n := .quiet 3)
    (fun _ => .basic) {} syncs_thirdHolder tidy_thirdHolder hself (by decide)
    fun _ _ => ⟨rfl, rfl, rfl⟩
  exact ⟨results, hagree, hagain, hend packs_thirdHolder⟩

end Sync

end HaloIndex
