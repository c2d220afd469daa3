import HaloIndex.Proofs.Sync.Mutual
import Mathlib.Data.Finite.Prod

namespace HaloIndex

variable {G A : Type}

namespace Sync

/-- What follows from the links that the ranks have: the same links seen from the other end, and
links between two ranks that a third one is linked to by the same key. -/
inductive Implied (size : Nat) (b : Nat → Sync G A) : Nat → Nat → Link G A → Prop where
  | known {p q : Nat} {l : Link G A} (hp : p < size) (h : l ∈ (b p).table.sendTo q) :
    Implied size b p q l
  | swapped {p q : Nat} {l : Link G A} (h : Implied size b p q l) : Implied size b q p l.reversed
  | relayed {p s q : Nat} {globalId : G} {here between there : A} (hps : p ≠ s)
      (hsq : s ≠ q) (hpq : p ≠ q) (h : Implied size b p s ⟨globalId, here, between⟩)
      (h' : Implied size b s q ⟨globalId, between, there⟩) :
      Implied size b p q ⟨globalId, here, there⟩

theorem Implied.of_implied {size : Nat} {b c : Nat → Sync G A}
    (h : ∀ p < size, ∀ q, ∀ l ∈ (c p).table.sendTo q, Implied size b p q l) {p q : Nat}
    {l : Link G A} (hl : Implied size c p q l) : Implied size b p q l := by
  induction hl with
  | known hp hl => exact h _ hp _ _ hl
  | swapped _ ih => exact ih.swapped
  | relayed hps hsq hpq _ _ ih ih' => exact ih.relayed hps hsq hpq ih'

section Finitely

variable {size : Nat} {b : Nat → Sync G A}

def linked (size : Nat) (b : Nat → Sync G A) : List (Link G A) :=
  (List.range size).flatMap fun p => (List.range size).flatMap (b p).table.sendTo

def linkedRoles (size : Nat) (b : Nat → Sync G A) : List A :=
  (linked size b).flatMap fun l => [l.localRole, l.remoteRole]

structure Familiar (size : Nat) (b : Nat → Sync G A) (p q : Nat) (l : Link G A) : Prop where
  source : p < size
  dest : q < size
  globalId : l.globalId ∈ (linked size b).map Link.globalId
  localRole : l.localRole ∈ linkedRoles size b
  remoteRole : l.remoteRole ∈ linkedRoles size b

theorem Implied.familiar
    (h : ∀ rank < size, ∀ other, ((b rank).table.linksTo other).isSome → other < size)
    {p q : Nat} {l : Link G A} (hl : Implied size b p q l) : Familiar size b p q l := by
  induction hl with
  | @known p q l hp hl =>
    have hq := h p hp q (LinkTable.isSome_of_mem_sendTo hl)
    have hmem : l ∈ linked size b :=
      List.mem_flatMap.mpr
        ⟨p, List.mem_range.mpr hp, List.mem_flatMap.mpr ⟨q, List.mem_range.mpr hq, hl⟩⟩
    exact ⟨hp, hq, List.mem_map_of_mem hmem, List.mem_flatMap.mpr ⟨l, hmem, by simp⟩,
      List.mem_flatMap.mpr ⟨l, hmem, by simp⟩⟩
  | swapped _ ih => exact ⟨ih.dest, ih.source, ih.globalId, ih.remoteRole, ih.localRole⟩
  | relayed _ _ _ _ _ ih ih' =>
    exact ⟨ih.source, ih'.dest, ih.globalId, ih.localRole, ih'.remoteRole⟩

theorem finite_implied
    (h : ∀ rank < size, ∀ other, ((b rank).table.linksTo other).isSome → other < size) :
    {e : Nat × Nat × Link G A | Implied size b e.1 e.2.1 e.2.2}.Finite := by
  have hnames : ({p | p < size} ×ˢ {q | q < size} ×ˢ
      {g | g ∈ (linked size b).map Link.globalId} ×ˢ
      {a | a ∈ linkedRoles size b} ×ˢ {a | a ∈ linkedRoles size b}).Finite :=
    Set.Finite.prod (Set.finite_lt_nat size) <| Set.Finite.prod (Set.finite_lt_nat size) <|
      (List.finite_toSet _).prod <| (List.finite_toSet _).prod (List.finite_toSet _)
  apply (hnames.image fun e => (e.1, e.2.1, (⟨e.2.2.1, e.2.2.2.1, e.2.2.2.2⟩ : Link G A))).subset
  rintro ⟨p, q, globalId, here, there⟩ hl
  obtain ⟨hp, hq, hglobal, hhere, hthere⟩ := Implied.familiar h hl
  exact ⟨(p, q, globalId, here, there), ⟨hp, hq, hglobal, hhere, hthere⟩, rfl⟩

end Finitely

/-- Ranks that can sync, with every list in order and no rank linked to itself. -/
structure Ready [Scalar G] [LT G] [LT A] [DecidableEq G] [DecidableEq A] [DecidableLT G]
    [DecidableLT A] (size : Nat) (b : Nat → Sync G A) : Prop where
  syncs : Syncs size b
  tidy : ∀ rank < size, (b rank).Tidy
  outward : Outward size b

structure Unchanged (b c : Sync G A) : Prop where
  keys : c.set.keys = b.set.keys
  lists : c.known = b.known

theorem sendTo_eq_known (b : Sync G A) (rank : Nat) :
    b.table.sendTo rank = (b.known.get? rank).getD [] := by
  rw [LinkTable.sendTo, known, NatMap.get?_map]
  rfl

theorem Unchanged.sendTo {b c : Sync G A} (h : Unchanged b c) (rank : Nat) :
    c.table.sendTo rank = b.table.sendTo rank := by
  rw [sendTo_eq_known, sendTo_eq_known, h.lists]

variable [Scalar G] [LT G] [LT A] [DecidableEq G] [DecidableEq A] [DecidableLT G] [DecidableLT A]
  {size : Nat} {b : Nat → Sync G A} {r : Nat → SyncResult G A} {p q : Nat} {l : Link G A}

theorem Ready.ne_of_mem (h : Ready size b) (hp : p < size)
    (hl : l ∈ (b p).table.sendTo q) : p ≠ q := by
  rintro rfl
  have hlisted := LinkTable.isSome_of_mem_sendTo hl
  rw [h.outward p hp] at hlisted
  cases hlisted

/-- Whatever a rank learns follows from what was known. -/
theorem Exact.implied (h : Ready size b) (hp : p < size) (hr : Exact b p (r p))
    (hl : l ∈ (r p).table.sendTo q) : Implied size b p q l := by
  obtain ⟨globalId, here, there⟩ := l
  rcases (hr.links q _).mp hl with hl | ⟨peer, hpeer, between, -, hknows, hown | ⟨hqp, hthird⟩⟩
  · exact .known hp hl
  · obtain ⟨rfl, rfl⟩ := hown
    have hq := h.syncs.inRange p hp q (mem_peers.mp hpeer).2
    exact (Implied.known hq hknows).swapped
  · obtain ⟨hne, hlisted⟩ := mem_peers.mp hpeer
    have hs := h.syncs.inRange p hp peer hlisted
    exact .relayed hne.symm (h.ne_of_mem hs hthird) hqp.symm (Implied.known hs hknows).swapped
      (.known hs hthird)

/-- A sync adds nothing to what follows from what is known. -/
theorem implied_again_iff (h : Ready size b) (hr : ∀ rank < size, Exact b rank (r rank))
    (numbering : Nat → Numbering G) :
    Implied size (again r numbering) p q l ↔ Implied size b p q l := by
  constructor
  · apply Implied.of_implied
    intro p hp q l hl
    exact Exact.implied h hp (hr p hp) hl
  · apply Implied.of_implied
    intro p hp q l hl
    exact .known hp (((hr p hp).links q l).mpr (.inl hl))

variable [IsStrictTotalOrder G (· < ·)] [IsStrictTotalOrder A (· < ·)]

theorem Ready.again (h : Ready size b) (hr : ∀ rank < size, Exact b rank (r rank))
    (numbering : Nat → Numbering G) : Ready size (again r numbering) where
  syncs := Exact.syncs h.syncs h.tidy h.outward hr numbering
  tidy rank hrank := ⟨(hr rank hrank).wellFormed, (hr rank hrank).ascending⟩
  outward := Exact.outward h.outward hr numbering

/-- If no rank learns of a link, none is left to be learned. -/
theorem Exact.mem_of_implied (h : Ready size b) (hr : ∀ rank < size, Exact b rank (r rank))
    (hsame : ∀ p < size, ∀ q, ∀ l ∈ (r p).table.sendTo q, l ∈ (b p).table.sendTo q)
    (hl : Implied size b p q l) : p < size ∧ q < size ∧ l ∈ (b p).table.sendTo q := by
  induction hl with
  | known hp hl => exact ⟨hp, h.syncs.inRange _ hp _ (LinkTable.isSome_of_mem_sendTo hl), hl⟩
  | @swapped p q l _ ih =>
    obtain ⟨hp, hq, hl⟩ := ih
    have hkept := ((hr p hp).links q l).mpr (.inl hl)
    have hback := Exact.reversed_mem h.syncs h.tidy h.outward hr hp hq (h.ne_of_mem hp hl) hkept
    exact ⟨hq, hp, hsame q hq p _ hback⟩
  | @relayed p s q globalId here between there hps hsq hpq _ _ ih ih' =>
    obtain ⟨hp, hs, hl⟩ := ih
    obtain ⟨-, hq, hl'⟩ := ih'
    refine ⟨hp, hq,
      hsame p hp q _ (((hr p hp).links q _).mpr (.inr ⟨s, ?_, between, ?_, ?_, ?_⟩))⟩
    · exact mem_peers.mpr ⟨hps.symm, LinkTable.isSome_of_mem_sendTo hl⟩
    · exact localKey_mem_of_checked h.syncs h.tidy hs hl'
    · have hkept := ((hr p hp).links s _).mpr (.inl hl)
      exact hsame s hs p _ (Exact.reversed_mem h.syncs h.tidy h.outward hr hp hs hps hkept)
    · exact .inr ⟨hpq.symm, hl'⟩

theorem Exact.mem_keys_iff (h : Ready size b) (hp : p < size) (hr : Exact b p (r p))
    {k : Key G A} :
    k ∈ (r p).set.keys ↔
      k ∈ (b p).set.keys ∨ ∃ q, ∃ l ∈ (r p).table.sendTo q, l.localKey = k := by
  constructor
  · intro hk
    rcases (hr.keys k).mp hk with hk | ⟨peer, hpeer, role, hkey, hknows⟩
    · exact .inl hk
    · refine .inr ⟨peer, ⟨k.globalId, k.role, role⟩,
        (hr.links _ _).mpr (.inr ⟨peer, hpeer, ?_⟩), rfl⟩
      exact ⟨role, hkey, hknows, .inl ⟨rfl, rfl⟩⟩
  · rintro (hk | ⟨q, l, hl, rfl⟩)
    · exact (hr.keys k).mpr (.inl hk)
    · exact Exact.localKey_mem h.syncs h.tidy hp hr hl

theorem Exact.unchanged (h : Ready size b) (hp : p < size) (hr : Exact b p (r p))
    (hsame : ∀ q, ∀ l ∈ (r p).table.sendTo q, l ∈ (b p).table.sendTo q)
    (numbering : Nat → Numbering G) : Unchanged (b p) (again r numbering p) := by
  have hlists : ∀ q, (r p).table.sendTo q = (b p).table.sendTo q := by
    intro q
    apply (hr.ascending q).ext ((h.tidy p hp).ascending q)
    exact fun l => ⟨hsame q l, fun hl => (hr.links q l).mpr (.inl hl)⟩
  have hlisted : ∀ q, ((r p).table.linksTo q).isSome = ((b p).table.linksTo q).isSome := by
    intro q
    rw [Bool.eq_iff_iff, hr.listed]
    refine or_iff_left_of_imp fun ⟨l, htold⟩ => ?_
    exact LinkTable.isSome_of_mem_sendTo (hsame q l ((hr.links q l).mpr (.inr htold)))
  constructor
  case keys =>
    apply hr.wellFormed.ascending.ext (h.tidy p hp).wellFormed.ascending
    intro k
    rw [Exact.mem_keys_iff h hp hr]
    refine or_iff_left_of_imp fun ⟨q, l, hl, hk⟩ => ?_
    exact hk ▸ localKey_mem_of_checked h.syncs h.tidy hp (hsame q l hl)
  case lists => exact LinkTable.map_send_congr hlists hlisted

end Sync

end HaloIndex
