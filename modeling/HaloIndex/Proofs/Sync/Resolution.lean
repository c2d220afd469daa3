import HaloIndex.Proofs.Halo.Plan
import HaloIndex.Proofs.Sync.Atomic
import Mathlib.Data.List.InsertIdx

namespace HaloIndex

variable {G A : Type} [LT G] [LT A] [DecidableEq G] [DecidableEq A] [DecidableLT G]
  [DecidableLT A]

namespace Discovery

theorem mem_of_mem_insertLink {links : List (Link G A)} {link l : Link G A}
    (h : l ∈ insertLink link links) :
    l = link ∨ l ∈ links := by
  unfold insertLink at h
  split at h
  next => exact .inr h
  next => exact List.eq_or_mem_of_mem_insertIdx h

/-- The set is in order and open for changes, and every link is about a key that it holds. -/
structure Held (d : Discovery G A) : Prop where
  wellFormed : d.set.WellFormed
  phase : d.set.phase = .resize
  held : ∀ rank, ∀ l ∈ d.linksTo rank, d.set.holds l.localKey = true

variable {d : Discovery G A}

theorem Held.record (h : d.Held) (rank : Nat) {link : Link G A}
    (hlink : d.set.holds link.localKey = true) :
    (d.record rank link).Held := by
  refine ⟨h.wellFormed, h.phase, fun other l hl => ?_⟩
  rw [linksTo_record] at hl
  split at hl
  next =>
    rcases mem_of_mem_insertLink hl with rfl | hl
    · exact hlink
    · exact h.held other l hl
  next => exact h.held other l hl

theorem Held.records (h : d.Held) {key : Key G A} (hkey : d.set.holds key = true)
    (link : A → Link G A) (hlink : ∀ a, (link a).localKey = key) (knowers : List (Nat × A)) :
    (knowers.foldl (fun d knower => d.record knower.1 (link knower.2)) d).Held := by
  induction knowers generalizing d with
  | nil => exact h
  | cons knower knowers ih => exact ih (h.record _ ((hlink _).symm ▸ hkey)) hkey

variable [IsStrictTotalOrder G (· < ·)] [IsStrictTotalOrder A (· < ·)]

theorem Held.mem_keys (h : d.Held) {set : IndexSet G A} (hcommit : d.set.commit = (.ok (), set))
    {rank : Nat} {l : Link G A} (hl : l ∈ d.linksTo rank) : l.localKey ∈ set.keys := by
  have hheld := h.held rank l hl
  rwa [IndexSet.holds_iff h.wellFormed.ascending,
    ← IndexSet.mem_keys_commit h.wellFormed hcommit] at hheld

variable [Scalar G] [Role A]

theorem Held.hold (h : d.Held) (numbering : Numbering G) (key : Key G A) :
    ∃ d' : Discovery G A, Discovery.hold numbering key d = (.ok (), d') ∧ d'.Held ∧
      d'.set.holds key = true := by
  unfold Discovery.hold
  split
  next hkey => exact ⟨d, rfl, h, hkey⟩
  next hkey =>
    have hnew : d.set.holds key = false := by simpa using hkey
    dsimp only
    rw [IndexSet.add_eq h.phase hnew]
    have hwell :=
      h.wellFormed.queue (a := ⟨key, numbering d.asked key.globalId, true⟩) h.phase hnew
    refine ⟨_, rfl, ⟨hwell, h.phase, fun rank l hl => ?_⟩, ?_⟩
    · have hheld := (IndexSet.holds_iff h.wellFormed.ascending).mp (h.held rank l hl)
      exact (IndexSet.holds_iff hwell.ascending).mpr
        (hheld.imp_right fun hin => List.mem_cons_of_mem _ hin)
    · exact (IndexSet.holds_iff hwell.ascending).mpr (.inr (List.mem_cons_self ..))

theorem Held.adopt (h : d.Held) (own sender : Nat) (numbering : Numbering G)
    (a : Announcement G A) (role : A) :
    (Discovery.adopt own sender numbering a role d).2.Held := by
  obtain ⟨d', hhold, hheld, hkey⟩ := h.hold numbering ⟨a.key.globalId, role⟩
  have hsender : (d'.record sender ⟨a.key.globalId, role, a.key.role⟩).Held :=
    hheld.record sender hkey
  have hknowers := hsender.records hkey (fun remoteRole => ⟨a.key.globalId, role, remoteRole⟩)
    (fun _ => rfl) (a.others own)
  rw [Discovery.adopt, hhold]
  exact hknowers

theorem Held.adoptAll (h : d.Held) (own sender : Nat) (numbering : Numbering G)
    (as : List (Announcement G A)) : (d.adoptAll own sender numbering as).2.Held :=
  forEach_induction (fun a _ _ hd =>
    forEach_induction (fun role _ _ hd => hd.adopt own sender numbering a role)
    hd) h

end Discovery

namespace Sync

open Discovery

variable [IsStrictTotalOrder G (· < ·)] [IsStrictTotalOrder A (· < ·)] [Scalar G] {b : Sync G A}

theorem held_start (hset : b.set.WellFormed) (hcheck : b.table.checkSyncable b.set = .ok ()) :
    b.start.Held := by
  obtain ⟨hphase, -, -, hheld⟩ := LinkTable.checkSyncable_eq_ok_iff.mp hcheck
  refine ⟨hset.opened, rfl, fun other l hl => ?_⟩
  rw [linksTo_start] at hl
  rw [holds_start hset hphase, ← IndexSet.positionOf_isSome_iff hset.ascending]
  exact hheld other l hl

variable [Role A]

/-- After a sync that ends well every link has a slot, and the table is aligned with the set. -/
theorem resolved_of_path (hset : b.set.WellFormed) {s : Station} {settings : SyncSettings}
    {es : List Event} {r : SyncResult G A} (hpath : (b.program s settings).Path es (.done r))
    (hok : r.outcome = .ok ()) :
    r.set.WellFormed ∧ r.set.phase = .ground ∧ HaloPlan.Resolved r.table r.set r.set ∧
      r.table.isSynced r.set r.set = true := by
  cases hcheck : b.table.checkSyncable b.set with
  | error f =>
    rw [((atomic_of_refused hcheck hpath).refused f hcheck).1] at hok
    cases hok
  | ok =>
    obtain ⟨outcome, d, rfl, hheld, -⟩ := program_keeps hcheck Held (fun d hd => hd.phase)
      (fun peer as d hd => hd.adoptAll _ peer _ as) (held_start hset hcheck) hpath
    cases outcome with
    | error f => cases hok
    | ok =>
      have hcommit := IndexSet.commit_eq hheld.phase
      have hwell := hheld.wellFormed.commit hcommit
      have hslots : ∀ e ∈ (d.links.map Links.shared).entries, ∃ links, e.2 = .shared links ∧
          IndexSet.Resolves d.set.committed links := by
        intro e he
        obtain ⟨⟨other, links⟩, hin, rfl⟩ := List.mem_map.mp he
        refine ⟨links, rfl, fun l hl => ?_⟩
        rw [IndexSet.isSome_slotOf?_iff hwell.ascending]
        apply hheld.mem_keys hcommit
        rw [Discovery.linksTo, NatMap.get?_eq_some_iff.mpr hin]
        exact hl
      rw [settle_ok hcommit]
      refine ⟨hwell, rfl, ⟨fun e he => ?_, fun e he => ?_⟩, LinkTable.isSynced_align ..⟩
      · obtain ⟨links, hshared, hresolves⟩ := hslots e he
        rw [hshared]
        exact hresolves
      · obtain ⟨links, hshared, hresolves⟩ := hslots e he
        rw [hshared]
        exact hresolves

end Sync

end HaloIndex
